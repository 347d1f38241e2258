import Tenok.Kernel.Delays
import Tenok.Kernel.JoinRuns
import Tenok.Lib.Places

/-!
Waiting for the processor. Threads come to a ready list at its end, and `__schedule` takes the first
thread of the highest list that has one. So no thread of the same priority overtakes another that is
ready, and a thread waits for those before it and for threads of higher priorities, and for no others.
-/
namespace Tenok
open Ring Queues

namespace Kernel
variable {k k' k'' : Kernel} {A A' : Set Tid} {L L' : SchedList → List Tid} {h g : SchedList}
  {t u : Tid} {p : Priority} {n : Nat} {sig : Signal}

/-- The thread is on this ready list, with at most so many threads before it. -/
def Turn (k : Kernel) (t : Tid) (p : Priority) (n : Nat) : Prop := Place t n (k.members (.ready p))

/-- No thread comes before the thread in the step, and it stays where it is. -/
def KeepsTurn (t : Tid) (k k' : Kernel) : Prop := ∀ p n, k.Turn t p n → k'.Turn t p n

theorem turn_iff (hT : Threaded k A L) : k.Turn t p n ↔ Place t n (L (.ready p)) := by
  rw [Turn, hT.members_eq (Threaded.ready_inUse p)]

theorem Turn.mem (h : k.Turn t p n) (hT : Threaded k A L) : t ∈ L (.ready p) :=
  Place.mem ((turn_iff hT).mp h)

namespace KeepsTurn

theorem refl (t : Tid) (k : Kernel) : KeepsTurn t k k := fun _ _ => id

theorem trans (h : KeepsTurn t k k') (h' : KeepsTurn t k' k'') : KeepsTurn t k k'' :=
  fun p n hturn => h' p n (h p n hturn)

theorem of_links (hlinks : k'.links = k.links) : KeepsTurn t k k' := fun p n hturn => by
  rwa [Turn, members_congr hlinks]

theorem of_lists (hT : Threaded k A L) (hT' : Threaded k' A' L')
    (hplace : ∀ p n, Place t n (L (.ready p)) → Place t n (L' (.ready p))) : KeepsTurn t k k' :=
  fun p n hturn => (turn_iff hT').mpr (hplace p n ((turn_iff hT).mp hturn))

theorem of_appended (hT : Threaded k A L) (hT' : Threaded k' A' L')
    (happend : ∀ p, ∃ joined, L' (.ready p) = L (.ready p) ++ joined) : KeepsTurn t k k' := by
  refine of_lists hT hT' fun p n hplace => ?_
  obtain ⟨joined, hjoined⟩ := happend p
  exact hjoined ▸ hplace.append joined

theorem makeReady (hT : Threaded k A L) (hu : u ∈ L g) (htu : t ≠ u) :
    KeepsTurn t k (k.makeReady u) :=
  of_lists hT (hT.makeReady hu) fun _ _ hplace => hplace.transfer htu _

theorem finishWait (hT : Threaded k A L) (hu : k.Alive u) (htu : t ≠ u) :
    KeepsTurn t k (k.finishWait u) := by
  rw [Kernel.finishWait]
  split
  · next hrun =>
      obtain ⟨g, hg⟩ := hT.exists_mem hu hrun
      exact makeReady hT hg htu
  · exact refl t k

theorem prepareToWait {state : ThreadStatus} (hT : Threaded k A L)
    (hT' : Threaded (k.prepareToWait h u state) A' (enqueue L u h)) :
    KeepsTurn t k (k.prepareToWait h u state) :=
  of_lists hT hT' fun _ _ hplace => hplace.enqueue u h

theorem queueSelf {f : ThreadInfo → ThreadInfo} (hT : Threaded k A L) (hst : k.Unqueued)
    (hf : ∀ i, (f i).status = i.status) (hh : h ∈ inUse A) (hjoin : h ≠ .join k.runningThread) :
    KeepsTurn t k ((k.setThread k.runningThread f).prepareToWait h k.runningThread .wait) := by
  have hst' : ((k.setThread k.runningThread f).threads k.runningThread).status = .running :=
    (Threaded.status_setThread hf k.runningThread).trans hst
  have hT₁ : Threaded (k.setThread k.runningThread f) A L := hT.setThread hf
  have hset : KeepsTurn t k (k.setThread k.runningThread f) := of_links rfl
  exact hset.trans (prepareToWait hT₁ (hT₁.prepareToWait hh hst' (by simp) hjoin))

theorem sysPoll (hT : Threaded k A L) (hst : k.Unqueued) (timeout : Int) :
    KeepsTurn t k (k.sysPoll timeout) :=
  of_lists hT (hT.sysPoll hst timeout) fun _ _ hplace => hplace.enqueue _ _

/-! ### Wake-ups -/

theorem wakeUpAll (hT : Threaded k A L) (hh : h ∈ inUse A) (hready : ∀ p, h ≠ .ready p)
    (hwake : k.wakeUpAll h = some k') : KeepsTurn t k k' := by
  obtain ⟨k₁, L₁, hk₁, hT₁, -, -, -, hqueue⟩ :=
    hT.wakeLoop Kernel.makeReady (fun _ => true) hh hready fun _ _ _ _ => rfl
  obtain rfl := Option.some.inj (hk₁.symm.trans hwake)
  exact of_appended hT hT₁ fun p => ⟨_, hqueue p⟩

theorem fifoWakeUp {availSize : Nat} (hT : Threaded k A L) (hh : h ∈ inUse A) (ht : t ∉ L h)
    (hwake : k.fifoWakeUp h availSize = some k') : KeepsTurn t k k' := by
  rw [Kernel.fifoWakeUp, hT.forEachEntry_eq hh] at hwake
  cases hres : (L h).foldl (k.fifoHigher availSize) none with
  | none =>
      rw [hres] at hwake
      obtain rfl := Option.some.inj hwake
      exact refl t k
  | some u =>
      have hu : u ∈ L h := (Threaded.mem_of_foldl_fifoHigher hres).resolve_left (by simp)
      rw [hres] at hwake
      obtain rfl := Option.some.inj hwake
      exact finishWait hT (hT.alive hu) fun htu => ht (htu ▸ hu)

theorem pollNotify {polls : Tid → Bool} (hT : Threaded k A L)
    (hnotify : k.pollNotify polls = some k') : KeepsTurn t k k' := by
  obtain ⟨k₁, L₁, hk₁, hT₁, -, -, -, hqueue⟩ := hT.wakeLoop (h := .poll)
    (fun k t => if polls t then k.finishWait t else k)
    (fun t => polls t && decide (t ≠ k.runningThread)) poll_inUse (by simp) fun k₁ L₁ t hW => by
      by_cases hp : polls t = true
      · simp [hp, Kernel.finishWait, hW.runningThread]
      · simp [hp]
  obtain rfl := Option.some.inj (hk₁.symm.trans hnotify)
  exact of_appended hT hT₁ fun p => ⟨_, hqueue p⟩

theorem foldl_finishWait {c : Tid → Bool} {l : List Tid} (hT : Threaded k A L)
    (halive : ∀ u ∈ l, k.Alive u) (ht : ¬ (t ∈ l ∧ c t = true)) :
    KeepsTurn t k (l.foldl (fun k u => if c u then k.finishWait u else k) k) := by
  induction l generalizing k L with
  | nil => exact refl t k
  | cons u l ih =>
      have htl : ¬ (t ∈ l ∧ c t = true) := fun h => ht ⟨List.mem_cons_of_mem _ h.1, h.2⟩
      rw [List.foldl_cons]
      split
      · next hc =>
          have hu := halive u List.mem_cons_self
          obtain ⟨L₁, hT₁, hW₁⟩ := hT.finishWait hu
          have hfirst : KeepsTurn t k (k.finishWait u) := finishWait hT hu fun htu =>
            ht ⟨htu ▸ List.mem_cons_self, htu ▸ hc⟩
          refine hfirst.trans (ih hT₁ (fun v hv => ?_) htl)
          rw [Alive, hW₁.rest]
          exact halive v (List.mem_cons_of_mem _ hv)
      · exact ih hT (fun v hv => halive v (List.mem_cons_of_mem _ hv)) htl

theorem systemTicks {expired : Tid → Bool} (hT : Threaded k {t | k.Alive t} L)
    (hR : Registered k) (ht : ¬ (t ∈ k.timeoutList ∧ expired t = true))
    (hticks : k.systemTicksUpdate expired = some k') : KeepsTurn t k k' := by
  obtain ⟨threads, hupdate, hinfo⟩ := hT.threadsTicksUpdate
  have hst : ∀ u, (threads u).status = (k.threads u).status := fun u => by rw [(hinfo u).1]
  have hT₁ : Threaded { k with threads } {t | k.Alive t} L := hT.of_status rfl rfl rfl hst
  have hticked : KeepsTurn t k { k with threads } := of_links rfl
  rw [Kernel.systemTicksUpdate, hupdate] at hticks
  obtain rfl := Option.some.inj hticks
  exact hticked.trans (foldl_finishWait hT₁ (fun u hu => (hR.timeoutList.2 u hu).1) ht)

/-! ### Threads that leave the lists -/

theorem unlink (hT : Threaded k A L) (hu : u ∈ L g) (htu : t ≠ u)
    (hlinks : k'.links = listDel k.links (Sum.inr u)) : KeepsTurn t k k' := by
  intro p n hturn
  have hrings : Rings k'.links (inUse A) (dequeue L u) := hlinks ▸ listDel_rings hT.rings hu
  have hmembers : k'.members (.ready p) = dequeue L u (.ready p) :=
    members_of_ring (hrings.ring _ (Threaded.ready_inUse p))
      ((List.length_erase_le).trans_lt (hT.length_lt _))
  rw [Turn, hmembers]
  exact ((turn_iff hT).mp hturn).dequeue htu

theorem links_leaveTask (hleave : k.leaveTask u = some k') :
    k'.links = k.links ∧ k'.runningThread = k.runningThread := by
  obtain ⟨_, -, rfl⟩ := leaveTask_eq_some hleave
  exact ⟨rfl, rfl⟩

theorem exitThread (hT : Threaded k A L) (halive : k.Alive u) (htu : t ≠ u)
    (hstale : u = k.runningThread → (k.threads u).status = .running →
      listDel k.links (Sum.inr u) = k.links)
    (hexit : k.exitThread u = some k') : KeepsTurn t k k' := by
  have hlinks : k'.links = listDel k.links (Sum.inr u) :=
    links_exitThreads (by simpa using hexit : [u].foldlM Kernel.exitThread k = some k')
  by_cases hst : (k.threads u).status = .running
  · exact of_links (hlinks.trans (hstale (hT.running u hst).1 hst))
  · obtain ⟨g, hg⟩ := (hT.linked_iff u).mpr ⟨halive, hst⟩
    exact unlink hT hg htu hlinks

theorem threadDelete (hT : Threaded k A L) (halive : k.Alive u) (htu : t ≠ u)
    (hdelete : k.threadDelete u = some k') : KeepsTurn t k k' := by
  simp only [Kernel.threadDelete, Option.bind_eq_bind, Option.bind_eq_some_iff,
    Option.some.injEq] at hdelete
  obtain ⟨k₁, hleave, task, -, rfl⟩ := hdelete
  obtain ⟨hlinks₁, hrun₁⟩ := links_leaveTask hleave
  have hlinks : (((k₁.unlinkOther u).terminate u).dropEmptyTask task).links =
      (k₁.unlinkOther u).links := by
    rw [dropEmptyTask_eq]
    rfl
  by_cases hur : u = k.runningThread
  · refine of_links (hlinks.trans ?_)
    rw [unlinkOther, if_neg (not_not.mpr (hur.trans hrun₁.symm)), hlinks₁]
  · obtain ⟨g, hg⟩ := hT.exists_mem halive hur
    refine unlink hT hg htu (hlinks.trans ?_)
    rw [unlinkOther, if_pos fun h => hur (h.trans hrun₁), hlinks₁]

theorem notMem_before {T pre post : List Tid} (hnodup : T.Nodup) (hsplit : T = pre ++ u :: post) :
    u ∉ pre := fun hmem => by
  rw [hsplit, List.nodup_append] at hnodup
  exact hnodup.2.2 u hmem u List.mem_cons_self rfl

theorem foldlM_removed {f : Kernel → Tid → Option Kernel} {T : List Tid} (hT : Threaded k A L)
    (hR : Registered k) (ht : t ∉ T)
    (hstep : ∀ pre u post k₁ L₁ k₂, T = pre ++ u :: post → pre.foldlM f k = some k₁ →
      Removed A k L pre k₁ L₁ → f k₁ u = some k₂ →
      (∃ L₂, Removed A k₁ L₁ [u] k₂ L₂) ∧ (t ≠ u → KeepsTurn t k₁ k₂))
    (hrun : T.foldlM f k = some k') : KeepsTurn t k k' := by
  induction T using List.reverseRecOn generalizing k' with
  | nil =>
      obtain rfl : k = k' := by simpa using hrun
      exact refl t k
  | append_singleton T u ih =>
      rw [List.foldlM_append, Option.bind_eq_bind, Option.bind_eq_some_iff] at hrun
      obtain ⟨k₁, hk₁, hlast⟩ := hrun
      rw [List.mem_append, List.mem_singleton, not_or] at ht
      have hpasses : ∀ pre v post k₂ L₂ k₃, T = pre ++ v :: post → pre.foldlM f k = some k₂ →
          Removed A k L pre k₂ L₂ → f k₂ v = some k₃ →
          (∃ L₃, Removed A k₂ L₂ [v] k₃ L₃) ∧ (t ≠ v → KeepsTurn t k₂ k₃) :=
        fun pre v post k₂ L₂ k₃ hsplit => hstep pre v (post ++ [u]) k₂ L₂ k₃ (by simp [hsplit])
      obtain ⟨L₁, hrem⟩ := Removed.foldlM hT hR
        (fun pre v post k₂ L₂ k₃ hsplit hk₂ hpre hk₃ =>
          (hpasses pre v post k₂ L₂ k₃ hsplit hk₂ hpre hk₃).1) hk₁
      exact (ih ht.1 hpasses hk₁).trans
        ((hstep T u [] k₁ L₁ k' rfl hk₁ hrem (by simpa using hlast)).2 ht.2)

theorem sysExit (hT : Threaded k {t | k.Alive t} L) (hR : Registered k) (hok : k.ExitOk)
    (ht : t ∉ k.currentThreads) (hexit : k.sysExit = some k') : KeepsTurn t k k' := by
  simp only [Kernel.sysExit, Option.bind_eq_bind, Option.bind_eq_some_iff,
    Option.some.injEq] at hexit
  obtain ⟨task, htask, k₁, hloop, rfl⟩ := hexit
  rw [currentThreads_eq htask] at ht
  obtain ⟨hdel, hstale⟩ := hok task htask
  have hnodup := (hR.taskThreads task).1
  have hremoved : KeepsTurn t k k₁ := by
    refine foldlM_removed hT hR ht (fun pre u post k₂ L₂ k₃ hsplit hpre₂ hpre hk₃ => ?_) hloop
    have huT : u ∈ k.taskThreads task := hsplit ▸ List.mem_append_right _ List.mem_cons_self
    have hupre : u ∉ pre := notMem_before hnodup hsplit
    have halive : k₂.Alive u :=
      (hpre.alive u).mpr ⟨hupre, ((hR.taskThreads task).2 u huT).1⟩
    have hpass : u = k₂.runningThread → (k₂.threads u).status = .running →
        listDel k₂.links (Sum.inr u) = k₂.links := by
      intro hrun hst
      -- the loop has come to the caller: the threads before it are those of `takeWhile`
      rw [hpre.runningThread] at hrun
      have hpre_eq : (k.taskThreads task).takeWhile (· ≠ k.runningThread) = pre := by
        rw [hsplit, List.takeWhile_append_of_pos, List.takeWhile_cons_of_neg]
        · simp
        · simpa using hrun
        · intro v hv
          simpa using fun h : v = k.runningThread => hupre (hrun ▸ h ▸ hv)
      have hunqueued : k.Unqueued := by rwa [hpre.threads u hupre, hrun] at hst
      have hneighbours := hstale hunqueued
      simp only [StaleLinks, hpre_eq, ← links_exitThreads hpre₂] at hneighbours
      rw [hrun]
      exact listDel_eq_self hneighbours.1 hneighbours.2
    exact ⟨hpre.threaded.exitThread hpre.registered halive (hpre.timeoutList ▸ (hdel u huT).1)
      hpass hk₃, fun htu => exitThread hpre.threaded halive htu hpass hk₃⟩
  exact hremoved.trans (of_links rfl)

theorem threadJoinHandler (hT : Threaded k {t | k.Alive t} L)
    (hst : (k.threads k.runningThread).status = .running)
    (hhandler : k.threadJoinHandler = some k') : KeepsTurn t k k' := by
  have hin : SchedList.join k.runningThread ∈ inUse {t | k.Alive t} := fun u hu => by
    obtain rfl : k.runningThread = u := Option.some.inj hu
    exact (hT.running _ hst).2
  obtain ⟨k₁, L₁, hk₁, hT₁, -, -, -, hqueue⟩ := hT.wakeLoop Kernel.finishWait
    (fun t => decide (t ≠ k.runningThread)) hin (by simp) fun k' L' t hW => by
      simp [Kernel.finishWait, hW.runningThread]
  have hwoken : KeepsTurn t k k₁ := of_appended hT hT₁ fun p => ⟨_, hqueue p⟩
  simp only [Kernel.threadJoinHandler, hk₁, Option.bind_eq_bind, Option.bind_some,
    Option.bind_eq_some_iff, Option.some.injEq] at hhandler
  obtain ⟨task, -, k₂, hleave, rfl⟩ := hhandler
  refine hwoken.trans (of_links ((links_leaveTask hleave).1.trans ?_))
  rw [dropEmptyTask_eq]

/-! ### Signals -/

theorem endSigwait (hT : Threaded k A L) (hu : k.Alive u) (htu : t ≠ u) :
    KeepsTurn t k (k.endSigwait u sig) := by
  rw [Kernel.endSigwait]
  split
  · have hT₁ : Threaded (k.setThread u fun i => { i with waitForSignal := false }) A L :=
      hT.setThread fun _ => rfl
    exact (of_links rfl).trans (finishWait hT₁ hu htu)
  · exact refl t k

theorem handleSignal_self (hP : Parked k L) (hT : Threaded k {t | k.Alive t} L)
    (hstop : sig ≠ .stop) (hcont : sig ≠ .cont) (hkill : sig ≠ .kill)
    (hsig : k.handleSignal t sig = some k') : KeepsTurn t k k' := by
  intro p n hturn
  have hmem := hturn.mem hT
  have hsame : k.endSigwait t sig = k := by
    rw [Kernel.endSigwait, if_neg]
    rintro ⟨hwaits, -⟩
    cases hT.rings.unique (hP.waiting t (hT.alive hmem) hwaits).1 hmem
  cases sig with
  | stop => exact absurd rfl hstop
  | cont => exact absurd rfl hcont
  | kill => exact absurd rfl hkill
  | usr1 | usr2 | poll =>
      obtain rfl := Option.some.inj hsig
      rwa [hsame]

theorem handleSignal_other (hT : Threaded k A L) (hu : k.Alive u) (htu : t ≠ u)
    (hstop : sig = .stop → k.Stoppable u) (hsig : k.handleSignal u sig = some k') :
    KeepsTurn t k k' := by
  have hfirst : KeepsTurn t k (k.endSigwait u sig) := endSigwait hT hu htu
  obtain ⟨L₁, hT₁, -, -⟩ := hT.endSigwait hu sig
  have hu₁ : (k.endSigwait u sig).Alive u := (Touched.endSigwait u k sig).alive.mpr hu
  cases sig with
  | kill => exact hfirst.trans (threadDelete hT₁ hu₁ htu hsig)
  | stop =>
      obtain rfl := Option.some.inj hsig
      rw [Kernel.threadSuspend]
      split
      · exact hfirst
      · next hnot =>
          obtain ⟨hrun, hst⟩ | ⟨hst, hwait⟩ := hstop rfl
          · have hst₁ := (Threaded.endSigwait_running .stop hrun).trans hst
            exact hfirst.trans (prepareToWait hT₁
              (hT₁.prepareToWait Threaded.suspend_inUse hst₁ (by simp) (by simp)))
          · rw [Kernel.endSigwait, if_neg hwait] at hnot
            exact absurd hst hnot
  | cont =>
      obtain rfl := Option.some.inj hsig
      rw [Kernel.threadResume]
      split
      · exact hfirst
      · next hst =>
          rw [not_not] at hst
          obtain ⟨g, hg⟩ := (hT₁.linked_iff u).mpr ⟨hu₁, by simp [hst]⟩
          exact hfirst.trans (makeReady hT₁ hg htu)
  | usr1 | usr2 | poll =>
      obtain rfl := Option.some.inj hsig
      exact hfirst

theorem handleSignal (hP : Parked k L) (hT : Threaded k {t | k.Alive t} L) (hu : k.Alive u)
    (hstop : sig = .stop → k.Stoppable u)
    (hspares : t = u → sig ≠ .stop ∧ sig ≠ .cont ∧ sig ≠ .kill)
    (hsig : k.handleSignal u sig = some k') : KeepsTurn t k k' := by
  by_cases htu : t = u
  · subst htu
    exact handleSignal_self hP hT (hspares rfl).1 (hspares rfl).2.1 (hspares rfl).2.2 hsig
  · exact handleSignal_other hT hu htu hstop hsig

theorem kill {T : List Tid} (hT : Threaded k {t | k.Alive t} L) (hR : Registered k)
    (hnodup : T.Nodup) (halive : ∀ t ∈ T, k.Alive t) (hok : k.Killable T) (ht : t ∉ T)
    (hsig : T.foldlM (fun k t => k.handleSignal t .kill) k = some k') : KeepsTurn t k k' := by
  refine foldlM_removed hT hR ht (fun pre u post k₁ L₁ k₂ hsplit _ hpre hk₂ => ?_) hsig
  have huT : u ∈ T := hsplit ▸ List.mem_append_right _ List.mem_cons_self
  have hupre : u ∉ pre := notMem_before hnodup hsplit
  have hu : k₁.Alive u := (hpre.alive u).mpr ⟨hupre, halive u huT⟩
  refine ⟨hpre.threaded.handleSignal_kill hpre.registered hu
    (hpre.timeoutList ▸ (hok.1 u huT).1) (fun hrun => ?_) hk₂,
    fun htu => handleSignal_other hpre.threaded hu htu (by simp) hk₂⟩
  rw [hpre.runningThread] at hrun
  rw [hpre.threads u hupre, hrun]
  exact hok.2 (hrun ▸ huT)

/-! ### New threads -/

theorem grown (hg : Grown k L k' A L') (hT : Threaded k {t | k.Alive t} L) : KeepsTurn t k k' := by
  refine of_lists hT hg.threaded fun p n hplace => ?_
  obtain heq | ⟨u, heq⟩ := hg.lists
  · exact heq ▸ hplace
  · exact heq ▸ hplace.enqueue u .sleep

/-! ### Priority inheritance -/

theorem raiseOwner {owner : Tid} {old new : Priority} (hT : Threaded k A L) (ht : t ≠ owner)
    (hne : old ≠ new) (hloop : k.forEachSafe (.ready old) (fun k u =>
      if u = owner then
        { k with links := listMove k.links (Sum.inr u) (Sum.inl (SchedList.ready new)) }
      else k) = some k') : KeepsTurn t k k' := by
  have hlists : SchedList.ready old ≠ .ready new := by simpa using hne
  have hrule := hT.forEachSafe_rule (fun k u =>
      if u = owner then
        { k with links := listMove k.links (Sum.inr u) (Sum.inl (SchedList.ready new)) }
      else k) (h := .ready old)
    (fun k₁ l => KeepsTurn t k k₁ ∧ ∃ L₁ pre, Threaded k₁ A L₁ ∧ L₁ (.ready old) = pre ++ l)
    (fun k₁ l hk₁ => hk₁.2) ?_ (Threaded.ready_inUse old) ⟨refl t k, L, [], hT, rfl⟩
  · obtain ⟨k₁, hk₁, hkeeps, -⟩ := hrule
    obtain rfl := Option.some.inj (hk₁.symm.trans hloop)
    exact hkeeps
  · rintro k₁ u l ⟨hkeeps, L₁, pre, hT₁, hl⟩
    have hu : u ∈ L₁ (.ready old) := hl ▸ List.mem_append_right _ List.mem_cons_self
    split
    · next howner =>
        have htu : t ≠ u := fun h => ht (h.trans howner)
        exact ⟨hkeeps.trans (of_lists hT₁ (hT₁.raise hu) fun _ _ hplace => hplace.transfer htu _),
          _, pre, hT₁.raise hu, hT₁.transfer_suffix hl hlists⟩
    · exact ⟨hkeeps, L₁, pre ++ [u], hT₁, by rw [hl, List.append_assoc]; rfl⟩

theorem threadInheritPriority {mutex : Mutex} (hT : Threaded k A L)
    (ht : mutex.protocol = .prioInherit → mutex.owner ≠ some t)
    (hinherit : k.threadInheritPriority mutex = some k') : KeepsTurn t k k' := by
  simp only [Kernel.threadInheritPriority] at hinherit
  split at hinherit
  · obtain rfl := Option.some.inj hinherit
    exact refl t k
  next hprotocol =>
    simp only [Option.bind_eq_bind, Option.bind_eq_some_iff] at hinherit
    obtain ⟨owner, howner, hbody⟩ := hinherit
    have hother : t ≠ owner := fun h => ht (not_not.mp hprotocol) (h ▸ howner)
    -- the priorities that are preserved first change no list
    generalize hk₁ : (if (k.threads owner).priorityInherited = true then k else
      (k.setThread k.runningThread fun i => { i with originalPriority := i.priority }).setThread
        owner fun i => { i with priorityInherited := true }) = k₁ at hbody
    have hfirst : Threaded k₁ A L ∧ KeepsTurn t k k₁ := by
      subst hk₁
      split
      · exact ⟨hT, refl t k⟩
      · refine ⟨Threaded.setThread (Threaded.setThread hT ?_) ?_, of_links rfl⟩
        · exact fun _ => rfl
        · exact fun _ => rfl
    obtain ⟨hT₁, hkeeps₁⟩ := hfirst
    split at hbody
    · next hlt =>
        obtain ⟨k₂, hk₂, hbody⟩ := Option.bind_eq_some_iff.mp hbody
        obtain rfl := Option.some.inj hbody
        have hraised : KeepsTurn t k₁ k₂ := raiseOwner hT₁ hother (Fin.ne_of_lt hlt) hk₂
        exact (hkeeps₁.trans hraised).trans (of_links rfl)
    · obtain rfl := Option.some.inj hbody
      exact hkeeps₁

end KeepsTurn

/-! ### Steps -/

/-- The step does not move the thread itself: it is spared, it is not raised as the owner of a mutex,
and no timeout of it is over. -/
def LetsWait (k : Kernel) (t : Tid) (e : KernelEvent) : Prop :=
  k.Spares t e ∧
    match e with
    | .inheritPriority mutex => mutex.protocol = .prioInherit → mutex.owner ≠ some t
    | .systemTicks expired => ¬ (t ∈ k.timeoutList ∧ expired t = true)
    | _ => True

instance decidableLetsWait (k : Kernel) (t : Tid) : (e : KernelEvent) → Decidable (k.LetsWait t e)
  | .inheritPriority _ => inferInstanceAs (Decidable (_ ∧ (_ → _)))
  | .systemTicks _ => inferInstanceAs (Decidable (_ ∧ ¬ (_ ∧ _)))
  | .call _ | .pollRet | .syscallHandler | .syscallReturn | .threadReturn | .wakeUp _
  | .wakeUpAll _ | .fifoWakeUp _ _ | .pollNotify _ | .taskletSchedule _
  | .resetInheritedPriority | .schedule => inferInstanceAs (Decidable (_ ∧ True))

variable {e : KernelEvent}

namespace KeepsTurn

theorem carries (t : Tid) : Carries t (KeepsTurn t) where
  refl := refl t
  trans := trans
  setThread _ _ := of_links rfl
  queueSelf := queueSelf
  sysPoll := sysPoll
  grown := grown
  handleSignal hP hT hu hstop hkill hspares :=
    handleSignal hP hT hu hstop fun htu => ⟨(hspares htu).1, (hspares htu).2, hkill⟩
  kill hT hR hnodup halive hok ht hsig := kill hT hR hnodup halive hok ht hsig
  threadDelete hT _ halive _ htu hdelete := threadDelete hT halive htu hdelete
  sysExit hT hR hok ht hexit := sysExit hT hR hok ht hexit
  threadJoinHandler hT _ _ hok hhandler := threadJoinHandler hT hok.1 hhandler

end KeepsTurn

theorem Turn.step (hturn : k.Turn t p n) (hP : Parked k L) (hT : Threaded k {t | k.Alive t} L)
    (hR : Registered k) (hok : k.EventOk e) (hlets : k.LetsWait t e)
    (hnot : e.isSchedule = false) (hstep : k.step e = some k') : k'.Turn t p n := by
  suffices hkeeps : KeepsTurn t k k' from hkeeps p n hturn
  obtain ⟨hspares, hmoves⟩ := hlets
  cases step_cases hT hok hstep with
  | call hexec hcall h => exact (KeepsTurn.carries t).runCall hP hT hR hexec hcall hspares h
  | pollRet | syscallHandler | syscallReturn | resetInheritedPriority =>
      exact KeepsTurn.of_links rfl
  | exits hmain hends h =>
      have hremoves := hspares.1
      rw [removes, if_pos hmain] at hremoves
      exact KeepsTurn.sysExit hT hR hends hremoves h
  | threadExits _ hends h => exact KeepsTurn.threadJoinHandler hT hends.1 h
  | wakeUp queue =>
      obtain ⟨-, heq⟩ | ⟨pre, u, post, hl, -, -, -, heq⟩ := hT.wakeUp (QueueAlive.inUse hok)
      · obtain rfl : k = k' := Option.some.inj (heq.symm.trans hstep)
        exact KeepsTurn.refl t k
      · obtain rfl : k.makeReady u = k' := Option.some.inj (heq.symm.trans hstep)
        have hu : u ∈ L (.wait queue) := hl ▸ List.mem_append_right _ List.mem_cons_self
        refine KeepsTurn.makeReady hT hu fun htu => ?_
        cases hT.rings.unique (hturn.mem hT) (htu ▸ hu)
  | wakeUpAll queue => exact KeepsTurn.wakeUpAll hT (QueueAlive.inUse hok) (by simp) hstep
  | fifoWakeUp queue availSize =>
      refine KeepsTurn.fifoWakeUp hT (QueueAlive.inUse hok) (fun hmem => ?_) hstep
      cases hT.rings.unique (hturn.mem hT) hmem
  | pollNotify polls => exact KeepsTurn.pollNotify hT hstep
  | taskletSchedule tid hmem =>
      refine KeepsTurn.finishWait hT (hR.threadsList.2 _ hmem) fun htu => ?_
      exact hspares.2.1 (congrArg some htu.symm)
  | inheritPriority mutex => exact KeepsTurn.threadInheritPriority hT hmoves hstep
  | systemTicks expired => exact KeepsTurn.systemTicks hT hR hmoves hstep
  | schedule => cases hnot

/-- No thread of a higher priority can be chosen. -/
def Uncontested (k : Kernel) (p : Priority) : Prop := ∀ q, p < q → k.contenders q = []

instance decidableUncontested (k : Kernel) (p : Priority) : Decidable (k.Uncontested p) :=
  inferInstanceAs (Decidable (∀ _, _ → _))

/-- A thread that is ready is not overtaken, and each time that no thread of a higher priority
contends the list before it gets shorter. -/
theorem Turn.schedule (hturn : k.Turn t p n) (hT : Threaded k {t | k.Alive t} L)
    (hsched : k.schedule = some k') : k'.runningThread = t ∨
      k'.Turn t p n ∧ (k.Uncontested p → ∃ m, n = m + 1 ∧ k'.Turn t p m) := by
  have hcontends : Place t n (k.contenders p) := Place.append hturn _
  obtain ⟨k₁, L₁, q, l, hk₁, hT₁, -, hfirst, habove, hready, -, -⟩ :=
    schedule_takes hT ⟨p, List.ne_nil_of_mem hcontends.mem⟩
  obtain rfl := Option.some.inj (hk₁.symm.trans hsched)
  by_cases hrun : k₁.runningThread = t
  · exact Or.inl hrun
  · refine Or.inr ⟨?_, fun hun => ?_⟩
    · rw [turn_iff hT₁, hready]
      exact hcontends.erase (Ne.symm hrun)
    · have hpq : p = q := by
        refine le_antisymm (not_lt.mp fun hlt => ?_) (not_lt.mp fun hlt => ?_)
        · exact List.ne_nil_of_mem hcontends.mem (habove p hlt)
        · rw [hun q hlt] at hfirst
          cases hfirst
      subst hpq
      rw [hfirst] at hcontends
      obtain ⟨m, rfl, hplace⟩ := hcontends.tail hrun
      refine ⟨m, rfl, ?_⟩
      rwa [turn_iff hT₁, hready, hfirst, List.erase_cons_head]

/-! ### Runs -/

/-- The calls of `__schedule` in a run at which no thread of a higher priority contends. -/
def turns (p : Priority) : Kernel → List KernelEvent → Nat
  | _, [] => 0
  | k, e :: es => (if e.isSchedule = true ∧ k.Uncontested p then 1 else 0) +
      (k.step e).elim 0 fun k' => turns p k' es

/-- `__schedule` runs the thread, and before that it is called at most so many times without a thread
of a higher priority. -/
def Gets (k : Kernel) (t : Tid) (p : Priority) (n : Nat) (es : List KernelEvent) : Prop :=
  ∃ pre post k₁ k₂, es = pre ++ .schedule :: post ∧ Runs.exec Kernel.step k pre = some k₁ ∧
    k₁.step .schedule = some k₂ ∧ k₂.runningThread = t ∧ turns p k pre ≤ n

theorem turns_cons (hstep : k.step e = some k') (p : Priority) (es : List KernelEvent) :
    turns p k (e :: es) =
      (if e.isSchedule = true ∧ k.Uncontested p then 1 else 0) + turns p k' es := by
  rw [turns, hstep, Option.elim_some]

theorem Gets.cons {es : List KernelEvent} {m : Nat} (hgets : k'.Gets t p m es)
    (hstep : k.step e = some k')
    (hle : (if e.isSchedule = true ∧ k.Uncontested p then 1 else 0) + m ≤ n) :
    k.Gets t p n (e :: es) := by
  obtain ⟨pre, post, k₁, k₂, rfl, hpre, hsched, hrun, hturns⟩ := hgets
  refine ⟨e :: pre, post, k₁, k₂, rfl, ?_, hsched, hrun, ?_⟩
  · exact Option.bind_eq_some_iff.mpr ⟨k', hstep, hpre⟩
  · rw [turns_cons hstep]
    omega

def InTurn (k : Kernel) (t : Tid) (p : Priority) (n : Nat) : Prop :=
  ∃ L, Threaded k {t | k.Alive t} L ∧ Registered k ∧ Parked k L ∧ k.Turn t p n

def WaitOk (t : Tid) (p : Priority) (k : Kernel) (e : KernelEvent) : Prop :=
  k.DelayOk e ∧ (t ∈ k.members (.ready p) → k.LetsWait t e)

instance decidableWaitOk (t : Tid) (p : Priority) (k : Kernel) (e : KernelEvent) :
    Decidable (WaitOk t p k e) :=
  inferInstanceAs (Decidable (_ ∧ (_ → _)))

theorem InTurn.run {es : List KernelEvent} (h : k.InTurn t p n)
    (hok : Runs.AllOk (WaitOk t p) Kernel.step k es) (hrun : Runs.exec Kernel.step k es = some k') :
    turns p k es ≤ n ∧ k'.InTurn t p (n - turns p k es) ∨ k.Gets t p n es := by
  induction es generalizing k n with
  | nil =>
      obtain rfl := Option.some.inj hrun
      exact Or.inl ⟨Nat.zero_le n, h⟩
  | cons e es ih =>
      obtain ⟨k₁, hk₁, hrest⟩ := Option.bind_eq_some_iff.mp hrun
      obtain ⟨L, hT, hR, hP, hturn⟩ := h
      obtain ⟨⟨heok, htasklet⟩, hlets⟩ := hok.1
      obtain ⟨L₁, hT₁, hR₁, hjoins⟩ := hP.step hT hR heok htasklet hk₁
      have hwaits : ∀ {m}, k₁.Turn t p m → (if e.isSchedule = true ∧ k.Uncontested p then 1 else 0) +
          m ≤ n → turns p k (e :: es) ≤ n ∧ k'.InTurn t p (n - turns p k (e :: es)) ∨
            k.Gets t p n (e :: es) := by
        intro m hturn₁ hle
        have hqueued : k₁.InTurn t p m := ⟨L₁, hT₁, hR₁, hjoins.parked, hturn₁⟩
        rw [turns_cons hk₁]
        obtain ⟨hturns, L₂, hT₂, hR₂, hP₂, hplace⟩ | hgets := ih hqueued (hok.2 k₁ hk₁) hrest
        · exact Or.inl ⟨by omega, L₂, hT₂, hR₂, hP₂, hplace.mono (by omega)⟩
        · exact Or.inr (hgets.cons hk₁ hle)
      cases hsched : e.isSchedule with
      | false =>
          refine hwaits (hturn.step hP hT hR heok (hlets (Place.mem hturn)) hsched hk₁) ?_
          simp [hsched]
      | true =>
          obtain rfl : e = .schedule := by cases e <;> first | rfl | cases hsched
          obtain hruns | ⟨hplace, hshorter⟩ := hturn.schedule hT hk₁
          · exact Or.inr ⟨[], es, k, k₁, rfl, rfl, hk₁, hruns, Nat.zero_le n⟩
          · by_cases hun : k.Uncontested p
            · obtain ⟨m, rfl, hturn₁⟩ := hshorter hun
              refine hwaits hturn₁ ?_
              rw [if_pos ⟨hsched, hun⟩, Nat.add_comm]
            · refine hwaits hplace ?_
              rw [if_neg fun h => hun h.2, Nat.zero_add]

/-- In every run in which the lists stay well formed, a thread that is ready and is let wait is run by
`__schedule` before so many calls of it are over as there are threads before it, not counting those at
which a thread of a higher priority contends; or it is still on its list with fewer threads before it. -/
theorem waits_or_gets {es₀ es : List KernelEvent}
    (hok₀ : Runs.AllOk DelayOk Kernel.step schedStart es₀)
    (hrun₀ : Runs.exec Kernel.step schedStart es₀ = some k) (hturn : k.Turn t p n)
    (hok : Runs.AllOk (WaitOk t p) Kernel.step k es) (hrun : Runs.exec Kernel.step k es = some k') :
    turns p k es ≤ n ∧ k'.Turn t p (n - turns p k es) ∨ k.Gets t p n es := by
  have hstep : ∀ k e k', (∃ L, Threaded k {t | k.Alive t} L ∧ Registered k ∧ Parked k L) →
      k.DelayOk e → k.step e = some k' →
      ∃ L, Threaded k' {t | k'.Alive t} L ∧ Registered k' ∧ Parked k' L := by
    rintro k e k' ⟨L, hT, hR, hP⟩ ⟨heok, htasklet⟩ hk'
    obtain ⟨L', hT', hR', hjoins⟩ := hP.step hT hR heok htasklet hk'
    exact ⟨L', hT', hR', hjoins.parked⟩
  obtain ⟨L, hT, hR, hP⟩ := Runs.exec_invariant hstep parked_schedStart hok₀ hrun₀
  have hinturn : k.InTurn t p n := ⟨L, hT, hR, hP, hturn⟩
  obtain ⟨hturns, _, -, -, -, hturn'⟩ | hgets := hinturn.run hok hrun
  · exact Or.inl ⟨hturns, hturn'⟩
  · exact Or.inr hgets

/-- Threads 4, 5 and 6 of one task, of which 4 runs and 6 is before 5. -/
def sharedRun : List KernelEvent := crowdRun ++ [.schedule]

def sharedKernel : Kernel := (Runs.exec Kernel.step schedStart sharedRun).getD schedStart

def shareRun : List KernelEvent :=
  [.systemTicks fun _ => false, .syscallHandler, .call .schedYield, .syscallReturn, .schedule,
    .systemTicks fun _ => false, .schedule]

theorem waits_or_gets_at_crowd :
    turns 1 sharedKernel shareRun = 2 ∧ sharedKernel.Gets 5 1 1 shareRun := by
  have hturns : turns 1 sharedKernel shareRun = 2 := by decide +kernel
  have hsome₀ : (Runs.exec Kernel.step schedStart sharedRun).isSome = true := by decide +kernel
  have hrun₀ : Runs.exec Kernel.step schedStart sharedRun = some sharedKernel := by
    refine (Option.some_get hsome₀).symm.trans ?_
    rw [sharedKernel, Option.get_eq_getD]
  have hsome : (Runs.exec Kernel.step sharedKernel shareRun).isSome = true := by decide +kernel
  obtain ⟨k', hrun⟩ := Option.isSome_iff_exists.mp hsome
  obtain ⟨hle, -⟩ | hgets := waits_or_gets (t := 5) (p := 1) (n := 1) (by decide +kernel) hrun₀
    ⟨[6], [], by decide +kernel, by decide⟩ (by decide +kernel) hrun
  · rw [hturns] at hle
    exact absurd hle (by decide)
  · exact ⟨hturns, hgets⟩

end Kernel

end Tenok
