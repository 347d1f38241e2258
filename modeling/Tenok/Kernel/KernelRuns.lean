import Tenok.Kernel.ThreadLife

/-!
The scheduling lists over whole runs of the kernel. Every step that meets its
condition keeps the invariant; a `SIGSTOP` for a thread that is on a list is a step
that does not.
-/
namespace Tenok
open Ring Queues

/-- Each live thread is on exactly one list; the running one is on at most one, and on
none while it executes. The lists in use are circular and hold live threads only. -/
structure SchedLists (k : Kernel) (L : SchedList → List Tid) : Prop where
  ring : ∀ h, (∀ u, h.owner = some u → k.Alive u) → IsRing k.links (.inl h) ((L h).map .inr)
  live : ∀ h t, t ∈ L h → k.Alive t ∧ ∀ u, h.owner = some u → k.Alive u
  another : ∀ t, t ∉ L (.join t)
  exactlyOne : ∀ t, k.Alive t → t ≠ k.runningThread → ∃! h, t ∈ L h
  atMostOne : ∀ h g, k.runningThread ∈ L h → k.runningThread ∈ L g → h = g
  executing : (k.threads k.runningThread).status = .running → ∀ h, k.runningThread ∉ L h

namespace Kernel
variable {k k' : Kernel} {A B : Set Tid} {L L' : SchedList → List Tid} {h : SchedList} {t : Tid}
  {T : List Tid} {S : Set SchedList}

theorem Consistent.schedLists (hinv : Consistent k) : ∃ L, SchedLists k L := by
  obtain ⟨L, hT, -⟩ := hinv
  refine ⟨L, fun g hg => hT.rings.ring g hg, fun g t ht => ⟨hT.alive ht, hT.rings.inUse ht⟩,
    hT.not_self, fun t ht hrun => ?_, fun _ _ => hT.rings.unique,
    fun hst => hT.notMem_of_running hst⟩
  obtain ⟨g, hg⟩ := hT.exists_mem ht hrun
  exact ⟨g, hg, fun g' hg' => hT.rings.unique hg' hg⟩

theorem members_of_ring {l : List Tid} (hring : IsRing k.links (.inl h) (l.map Sum.inr))
    (hlen : l.length < loopBound) : k.members h = l := by
  have hfold : ∀ l acc : List Tid, l.foldl (fun l t => l ++ [t]) acc = acc ++ l := by
    intro l
    induction l with
    | nil => simp
    | cons t l ih => simp [ih]
  rw [members, forEachEntry_of_ring hring hlen, hfold]
  rfl

namespace Threaded

theorem shrink (hT : Threaded k A L) (hsub : B ⊆ A)
    (hempty : ∀ h t, h.owner = some t → t ∈ A → t ∉ B → L h = []) : Threaded k B L where
  rings := by
    refine hT.rings.shrink (fun h hh t ht => hsub (hh t ht)) fun h hh => ?_
    simp only [inUse, Set.mem_ofPred_eq, not_forall] at hh
    obtain ⟨t, ht, htB⟩ := hh
    by_cases htA : t ∈ A
    · exact hempty h t ht htA htB
    · exact List.eq_nil_iff_forall_not_mem.mpr fun u hu => htA (hT.rings.inUse hu t ht)
  linked_iff := hT.linked_iff
  running := hT.running
  lt_max := hT.lt_max
  not_self := hT.not_self

theorem members_eq (hT : Threaded k A L) (hh : h ∈ inUse A) : k.members h = L h :=
  members_of_ring (hT.rings.ring h hh) (hT.length_lt h)

theorem mem_ownLists : h ∈ ownLists t ↔ h.owner = some t := by
  cases h with
  | wait q => cases q <;> simp [ownLists, SchedList.owner, eq_comm]
  | _ => simp [ownLists, SchedList.owner, eq_comm]

end Threaded

theorem Consistent.of_threaded (hT : Threaded k' {t | k.Alive t} L) (hR : Registered k')
    (hbitmap : k'.bitmapThreads = k.bitmapThreads) : Consistent k' := by
  refine ⟨L, ?_, hR⟩
  simpa only [Alive, hbitmap] using hT

theorem Consistent.wakes (hR : Registered k) (hT : Threaded k' {t | k.Alive t} L')
    (hW : Wakes S k L k' L') : Consistent k' :=
  of_threaded hT (hW.registered hR) (by rw [hW.rest])

theorem Consistent.prepareToWait {state : ThreadStatus} (hinv : Consistent k)
    (hst : (k.threads k.runningThread).status = .running) (hh : h ∈ inUse {t | k.Alive t})
    (hstate : state ≠ .running) (hjoin : h ≠ .join k.runningThread) :
    Consistent (k.prepareToWait h k.runningThread state) := by
  obtain ⟨L, hT, hR⟩ := hinv
  exact of_threaded (hT.prepareToWait hh hst hstate hjoin)
    ((Touched.prepareToWait _ k h state).registered hR) rfl

theorem Consistent.removed (hT : Threaded k {t | k.Alive t} L) (hdel : k.Deletable T)
    (hrem : Removed {t | k.Alive t} k L T k' L') : Consistent k' := by
  refine ⟨L', hrem.threaded.shrink (fun t ht => ((hrem.alive t).mp ht).2) ?_, hrem.registered⟩
  intro h t howner htA htB
  have htT : t ∈ T := by
    by_contra htT
    exact htB ((hrem.alive t).mpr ⟨htT, htA⟩)
  refine List.eq_nil_iff_forall_not_mem.mpr fun u hu => ?_
  obtain ⟨huT, huL⟩ := (hrem.mem u h).mp hu
  have hin : h ∈ inUse {t | k.Alive t} := hT.rings.inUse huL
  refine huT ((hdel t htT).2 h (Threaded.mem_ownLists.mpr howner) u ?_)
  rwa [hT.members_eq hin]

theorem handleSignal_touched {sig : Signal} (hT : Threaded k A L) (ht : k.Alive t)
    (hstop : sig = .stop → k.Stoppable t) (hkill : sig ≠ .kill)
    (hsig : k.handleSignal t sig = some k') :
    (∃ L', Threaded k' A L' ∧ Files k L k' L') ∧ Touched t k k' := by
  have htouched := Touched.endSigwait t k sig
  cases sig with
  | kill => exact absurd rfl hkill
  | stop =>
      obtain rfl := Option.some.inj hsig
      refine ⟨hT.handleSignal_stop ht (hstop rfl), htouched.trans ?_⟩
      rw [threadSuspend]
      split
      · exact Touched.refl ..
      · exact Touched.prepareToWait ..
  | cont =>
      obtain rfl := Option.some.inj hsig
      refine ⟨hT.handleSignal_cont ht, htouched.trans ?_⟩
      rw [threadResume]
      split
      · exact Touched.refl ..
      · exact Touched.makeReady ..
  | usr1 | usr2 | poll =>
      obtain rfl := Option.some.inj hsig
      obtain ⟨L', hT', -, hfiles⟩ := hT.endSigwait ht _
      exact ⟨⟨L', hT', hfiles⟩, htouched⟩

theorem Threaded.kill (hT : Threaded k {t | k.Alive t} L) (hR : Registered k) (hnodup : T.Nodup)
    (halive : ∀ t ∈ T, k.Alive t) (hok : k.Killable T)
    (hsig : T.foldlM (fun k t => k.handleSignal t .kill) k = some k') :
    ∃ L', Removed {t | k.Alive t} k L T k' L' := by
  refine Removed.foldlM hT hR (fun pre t post k₁ L₁ k₂ hsplit _ hpre hk₂ => ?_) hsig
  have htT : t ∈ T := hsplit ▸ List.mem_append_right _ List.mem_cons_self
  have htpre : t ∉ pre := fun hmem => by
    rw [hsplit, List.nodup_append] at hnodup
    exact hnodup.2.2 t hmem t List.mem_cons_self rfl
  refine hpre.threaded.handleSignal_kill hpre.registered ((hpre.alive t).mpr
    ⟨htpre, halive t htT⟩) (hpre.timeoutList ▸ (hok.1 t htT).1) (fun hrun => ?_) hk₂
  rw [hpre.runningThread] at hrun
  rw [hpre.threads t htpre, hrun]
  exact hok.2 (hrun ▸ htT)

theorem Consistent.signal {sig : Signal} (hinv : Consistent k)
    (hnodup : T.Nodup) (halive : ∀ t ∈ T, k.Alive t) (hok : k.SignalOk T (some sig))
    (hsig : T.foldlM (fun k t => k.handleSignal t sig) k = some k') : Consistent k' := by
  obtain ⟨L, hT, hR⟩ := hinv
  by_cases hkill : sig = .kill
  · subst hkill
    obtain ⟨L', hrem⟩ := hT.kill hR hnodup halive hok hsig
    exact removed hT hok.1 hrem
  · have hstop : ∀ t ∈ T, sig = .stop → k.Stoppable t := by
      rintro t ht rfl
      exact hok t ht
    obtain ⟨⟨L', hT', -⟩, hR', hbitmap⟩ := hT.foldlM_touched
      (fun k t => sig = .stop → k.Stoppable t) hR hnodup halive hstop
      (fun k₁ k₂ t u htouched hut hk₁ hs => Threaded.stoppable_frame htouched hut (hk₁ hs))
      (fun k₁ L₁ t k₂ hT₁ ht hk₁ => handleSignal_touched hT₁ ht hk₁ hkill) hsig
    exact of_threaded hT' hR' hbitmap

theorem Threaded.deleteKillable (hT : Threaded k {t | k.Alive t} L) (hR : Registered k)
    (halive : k.Alive t) (hok : k.Killable [t]) (hdelete : k.threadDelete t = some k') :
    ∃ L', Removed {t | k.Alive t} k L [t] k' L' :=
  hT.threadDelete hR halive (hok.1 t List.mem_cons_self).1
    (fun hrun => hrun ▸ hok.2 (hrun ▸ List.mem_cons_self)) hdelete

theorem Consistent.threadDelete (hinv : Consistent k) (halive : k.Alive t)
    (hok : k.Killable [t]) (hdelete : k.threadDelete t = some k') : Consistent k' := by
  obtain ⟨L, hT, hR⟩ := hinv
  obtain ⟨L', hrem⟩ := hT.deleteKillable hR halive hok hdelete
  exact removed hT hok.1 hrem

theorem links_exitThreads {pre : List Tid} (hexit : pre.foldlM exitThread k = some k') :
    k'.links = pre.foldl (fun s t => listDel s (Sum.inr t)) k.links := by
  induction pre generalizing k with
  | nil =>
      obtain rfl : k = k' := by simpa using hexit
      rfl
  | cons t pre ih =>
      rw [List.foldlM_cons, Option.bind_eq_bind, Option.bind_eq_some_iff] at hexit
      obtain ⟨k₁, hk₁, hrest⟩ := hexit
      have hlinks : k₁.links = listDel k.links (Sum.inr t) := by
        simp only [exitThread, Option.bind_eq_bind, Option.bind_eq_some_iff,
          Option.some.injEq] at hk₁
        obtain ⟨k₂, hleave, rfl⟩ := hk₁
        obtain ⟨_, -, rfl⟩ := leaveTask_eq_some hleave
        rfl
      rw [ih hrest, List.foldl_cons, hlinks]

theorem Threaded.sysExit (hT : Threaded k {t | k.Alive t} L) (hR : Registered k) (hok : k.ExitOk)
    (hexit : k.sysExit = some k') : ∃ task L', k.currentTaskInfo = some task ∧
      Removed {t | k.Alive t} k L (k.taskThreads task) k' L' := by
  simp only [Kernel.sysExit, Option.bind_eq_bind, Option.bind_eq_some_iff,
    Option.some.injEq] at hexit
  obtain ⟨task, htask, k₁, hloop, rfl⟩ := hexit
  obtain ⟨hdel, hstale⟩ := hok task htask
  have hnodup := (hR.taskThreads task).1
  obtain ⟨L₁, hrem⟩ : ∃ L₁, Removed {t | k.Alive t} k L (k.taskThreads task) k₁ L₁ := by
    refine Removed.foldlM hT hR (fun pre t post k₂ L₂ k₃ hsplit hpre₂ hpre hk₃ => ?_) hloop
    have htT : t ∈ k.taskThreads task := hsplit ▸ List.mem_append_right _ List.mem_cons_self
    have htpre : t ∉ pre := fun hmem => by
      rw [hsplit, List.nodup_append] at hnodup
      exact hnodup.2.2 t hmem t List.mem_cons_self rfl
    refine hpre.threaded.exitThread hpre.registered ((hpre.alive t).mpr
      ⟨htpre, ((hR.taskThreads task).2 t htT).1⟩) (hpre.timeoutList ▸ (hdel t htT).1)
      (fun hrun hst => ?_) hk₃
    -- the loop has come to the caller: the threads before it are those of `takeWhile`
    rw [hpre.runningThread] at hrun
    have hpre_eq : (k.taskThreads task).takeWhile (· ≠ k.runningThread) = pre := by
      rw [hsplit, List.takeWhile_append_of_pos, List.takeWhile_cons_of_neg]
      · simp
      · simpa using hrun
      · intro u hu
        simpa using fun h : u = k.runningThread => htpre (hrun ▸ h ▸ hu)
    have hunqueued : k.Unqueued := by
      rwa [hpre.threads t htpre, hrun] at hst
    have hneighbours := hstale hunqueued
    simp only [StaleLinks, hpre_eq, ← links_exitThreads hpre₂] at hneighbours
    rw [hrun]
    exact listDel_eq_self hneighbours.1 hneighbours.2
  exact ⟨task, L₁, htask, hrem.threaded.taskDelete, hrem.registered.taskDelete, hrem.mem, hrem.alive,
    hrem.timeoutList, hrem.runningThread, hrem.threads⟩

theorem Consistent.sysExit (hinv : Consistent k) (hok : k.ExitOk) (hexit : k.sysExit = some k') :
    Consistent k' := by
  obtain ⟨L, hT, hR⟩ := hinv
  obtain ⟨task, L', htask, hrem⟩ := hT.sysExit hR hok hexit
  exact removed hT (hok task htask).1 hrem

theorem Threaded.threadExit (hT : Threaded k {t | k.Alive t} L) (hR : Registered k)
    (hexec : k.Executing) (hok : k.ThreadExitOk) (hhandler : k.threadJoinHandler = some k') :
    ∃ k₁ L', Wakes {.join k.runningThread} k L k₁ L' ∧ L' (.join k.runningThread) = [] ∧
      Removed {t | k.Alive t} k₁ L' [k.runningThread] k' L' ∧
      ∀ u, k'.Alive u ↔ u ≠ k.runningThread ∧ k.Alive u := by
  have hrun := (hT.running _ hok.1).2
  have htimeout : k.runningThread ∉ k.timeoutList := fun hmem => by
    simpa [hexec.2] using (hR.timeoutList.2 _ hmem).2
  have hin : SchedList.join k.runningThread ∈ inUse {t | k.Alive t} := fun u hu => by
    obtain rfl : k.runningThread = u := Option.some.inj hu
    exact hrun
  obtain ⟨k₁, L', hW, hempty, -, hrem⟩ := hT.threadJoinHandler_wakes hR hok.1 hin htimeout hhandler
  refine ⟨k₁, L', hW, hempty, hrem, fun u => ?_⟩
  rw [hrem.alive, List.mem_singleton, Alive, hW.rest]
  rfl

theorem Consistent.threadJoinHandler (hinv : Consistent k) (hexec : k.Executing)
    (hok : k.ThreadExitOk) (hhandler : k.threadJoinHandler = some k') : Consistent k' := by
  obtain ⟨L, hT, hR⟩ := hinv
  obtain ⟨k₁, L', hW, hjoin, hrem, halive⟩ := hT.threadExit hR hexec hok hhandler
  obtain ⟨hst, hpipeRead, hpipeWrite⟩ := hok
  have hown : ∀ h, h.owner = some k.runningThread → h ∈ inUse {t | k.Alive t} := by
    intro h howner t ht
    obtain rfl : k.runningThread = t := Option.some.inj (howner.symm.trans ht)
    exact (hT.running _ hst).2
  refine ⟨L', hrem.threaded.shrink (fun t ht => ((halive t).mp ht).2) fun h t howner htA htB => ?_,
    hrem.registered⟩
  obtain rfl : t = k.runningThread := by
    by_contra hne
    exact htB ((halive t).mpr ⟨hne, htA⟩)
  have hpipe : L h = [] → (∀ p, h ≠ .ready p) → L' h = [] := fun hnil hne =>
    List.eq_nil_iff_forall_not_mem.mpr fun u hu => by simpa [hnil] using hW.leaves h hne u hu
  have hcases := Threaded.mem_ownLists.mpr howner
  simp only [ownLists, List.mem_cons, List.not_mem_nil, or_false] at hcases
  obtain rfl | rfl | rfl := hcases
  · exact hjoin
  · exact hpipe ((hT.members_eq (hown _ rfl)).symm.trans hpipeRead) (by simp)
  · exact hpipe ((hT.members_eq (hown _ rfl)).symm.trans hpipeWrite) (by simp)

theorem Consistent.queueSelf {f : ThreadInfo → ThreadInfo} {state : ThreadStatus}
    (hinv : Consistent k) (hst : (k.threads k.runningThread).status = .running)
    (hf : ∀ i, (f i).status = i.status ∧ (f i).task = i.task ∧ (f i).pollTimed = i.pollTimed)
    (hh : h ∈ inUse {t | k.Alive t}) (hstate : state ≠ .running)
    (hjoin : h ≠ .join k.runningThread) :
    Consistent ((k.setThread k.runningThread f).prepareToWait h k.runningThread state) :=
  (hinv.setThread hf).prepareToWait
    ((Threaded.status_setThread (fun i => (hf i).1) k.runningThread).trans hst) hh hstate hjoin

theorem QueueAlive.inUse {queue : WaitQueue} (h : k.QueueAlive queue) :
    SchedList.wait queue ∈ inUse {t | k.Alive t} := h

theorem poll_inUse : SchedList.poll ∈ inUse A := by simp [Tenok.inUse, SchedList.owner]

theorem initListHead_eq_self (hT : Threaded k A L) (hh : h ∈ inUse A) (hempty : L h = []) :
    initListHead k.links (Sum.inl h) = k.links := by
  have hring := hT.rings.ring h hh
  rw [hempty] at hring
  obtain ⟨hnext, hprev⟩ := hring.segment
  change Cells.mk (Function.update k.links.next (Sum.inl h) (Sum.inl h))
    (Function.update k.links.prev (Sum.inl h) (Sum.inl h)) = k.links
  have hn : Function.update k.links.next (Sum.inl h) (Sum.inl h) = k.links.next :=
    Function.update_eq_self_iff.mpr hnext.symm
  have hp : Function.update k.links.prev (Sum.inl h) (Sum.inl h) = k.links.prev :=
    Function.update_eq_self_iff.mpr hprev.symm
  rw [hn, hp]

theorem Consistent.setPoll {b : Bool} {l : List Tid} (hinv : Consistent k) (hl : l.Nodup)
    (hmem : ∀ u ∈ l, (u = t ∧ b = true ∧ k.Alive t) ∨ (u ≠ t ∧ u ∈ k.timeoutList)) :
    Consistent { k.setThread t fun i => { i with pollTimed := b } with timeoutList := l } := by
  obtain ⟨L, hT, hR⟩ := hinv
  have htask : ∀ u, ((k.setThread t fun i => { i with pollTimed := b }).threads u).task =
      (k.threads u).task := by
    intro u
    by_cases hut : u = t
    · simp [Kernel.setThread, hut]
    · simp [Kernel.setThread, hut]
  refine ⟨L, (hT.setThread (t := t) (f := fun i => { i with pollTimed := b })
    fun _ => rfl).of_status rfl rfl rfl fun _ => rfl, hR.threadsList, fun p => ?_, hl,
    fun u hu => ?_⟩
  · refine ⟨(hR.taskThreads p).1, fun u hu => ⟨((hR.taskThreads p).2 u hu).1, ?_⟩⟩
    exact (htask u).trans ((hR.taskThreads p).2 u hu).2
  · obtain ⟨rfl, rfl, halive⟩ | ⟨hut, hu⟩ := hmem u hu
    · exact ⟨halive, by simp [Kernel.setThread]⟩
    · obtain ⟨halive, hpoll⟩ := hR.timeoutList.2 u hu
      exact ⟨halive, by simpa [Kernel.setThread, hut] using hpoll⟩

theorem Consistent.notMem_timeoutList (hinv : Consistent k) (hexec : k.Executing) :
    k.runningThread ∉ k.timeoutList := by
  obtain ⟨L, -, hR⟩ := hinv
  intro hmem
  simpa [hexec.2] using (hR.timeoutList.2 _ hmem).2

theorem Consistent.sysPoll {timeout : Int} (hinv : Consistent k) (hexec : k.Executing)
    (hst : k.Unqueued) : Consistent (k.sysPoll timeout) := by
  have hnew := hinv.notMem_timeoutList hexec
  have hrun : k.Alive k.runningThread := by
    obtain ⟨L, hT, -⟩ := hinv
    exact (hT.running _ hst).2
  have hnodup : k.timeoutList.Nodup := by
    obtain ⟨L, -, hR⟩ := hinv
    exact hR.timeoutList.1
  have hpoll : Consistent (k.prepareToWait .poll k.runningThread .wait) :=
    hinv.prepareToWait hst poll_inUse (by simp) (by simp)
  rw [Kernel.sysPoll]
  split
  · have hdisjoint : k.timeoutList.Disjoint [k.runningThread] := by simpa using hnew
    refine hpoll.setPoll (hnodup.append (List.nodup_singleton _) hdisjoint) ?_
    intro u hu
    simp only [List.mem_append, List.mem_singleton] at hu
    obtain hu | rfl := hu
    · exact Or.inr ⟨fun h => hnew (h ▸ hu), hu⟩
    · exact Or.inl ⟨rfl, rfl, hrun⟩
  · exact hpoll

theorem Consistent.sysPollRet (hinv : Consistent k) : Consistent k.sysPollRet := by
  have hnodup : k.timeoutList.Nodup := by
    obtain ⟨L, -, hR⟩ := hinv
    exact hR.timeoutList.1
  refine hinv.setPoll (hnodup.erase _) fun u hu => Or.inr ?_
  exact hnodup.mem_erase_iff.mp hu

theorem acquireThread_eq_some {tid : Tid} :
    k.acquireThread tid = some t ↔ tid ∈ k.threadsList ∧ tid = t := by
  simp [acquireThread]

theorem Registered.join_inUse {tid : Tid} (hR : Registered k) (hjoins : k.Joins tid) :
    SchedList.join tid ∈ inUse {t | k.Alive t} := by
  intro u hu
  obtain rfl : tid = u := Option.some.inj hu
  exact hR.threadsList.2 tid hjoins.1

theorem sysPthreadJoin_cases {tid : Tid} {r : SysResult} (hjoin : k.sysPthreadJoin tid = some r) :
    (¬ k.Joins tid ∧ r.1 = k ∧ ∃ e, r.2 = .error e) ∨
      (k.Joins tid ∧ r = (k.prepareToWait (.join tid) k.runningThread .wait, .ok ())) := by
  simp only [Kernel.sysPthreadJoin] at hjoin
  split at hjoin
  · next hnone =>
      obtain rfl := Option.some.inj hjoin
      refine Or.inl ⟨fun hjoins => ?_, rfl, _, rfl⟩
      simp [acquireThread, hjoins.1] at hnone
  · next thread hfound =>
      obtain ⟨hmem, rfl⟩ := acquireThread_eq_some.mp hfound
      split at hjoin
      · next hstate =>
          obtain rfl := Option.some.inj hjoin
          refine Or.inl ⟨fun hjoins => ?_, rfl, _, rfl⟩
          simp [hjoins.2.1, hjoins.2.2.1] at hstate
      · next hstate =>
          simp only [not_or, Bool.not_eq_true, Bool.not_eq_false] at hstate
          obtain ⟨deadlock, hdeadlock, hjoin⟩ := Option.bind_eq_some_iff.mp hjoin
          cases deadlock with
          | true =>
              obtain rfl := Option.some.inj hjoin
              refine Or.inl ⟨fun hjoins => ?_, rfl, _, rfl⟩
              simp [hjoins.2.2.2] at hdeadlock
          | false =>
              obtain rfl := Option.some.inj hjoin
              exact Or.inr ⟨⟨hmem, hstate.1, hstate.2, hdeadlock⟩, rfl⟩

theorem sysPthreadCancel_cases {tid : Tid} {r : SysResult}
    (hcancel : k.sysPthreadCancel tid = some r) :
    (¬ k.Receives tid ∧ r.1 = k) ∨ (k.Receives tid ∧ k.threadDelete tid = some r.1) := by
  simp only [Kernel.sysPthreadCancel] at hcancel
  split at hcancel
  · next hnone =>
      obtain rfl := Option.some.inj hcancel
      exact Or.inl ⟨fun h => by simp [acquireThread, h.1] at hnone, rfl⟩
  · next thread hfound =>
      obtain ⟨hmem, rfl⟩ := acquireThread_eq_some.mp hfound
      split at hcancel
      · next hpriv =>
          obtain rfl := Option.some.inj hcancel
          exact Or.inl ⟨fun h => h.2 hpriv, rfl⟩
      · next hpriv =>
          simp only [Option.bind_eq_bind, Option.bind_eq_some_iff, Option.some.injEq] at hcancel
          obtain ⟨k₁, hdelete, rfl⟩ := hcancel
          exact Or.inr ⟨⟨hmem, hpriv⟩, hdelete⟩

theorem sysPthreadKill_cases {tid : Tid} {sig : Option Signal} {r : SysResult}
    (hkill : k.sysPthreadKill tid sig = some r) :
    ((sig = none ∨ ¬ k.Receives tid) ∧ r.1 = k) ∨
      ∃ s, sig = some s ∧ k.Receives tid ∧ k.handleSignal tid s = some r.1 := by
  simp only [Kernel.sysPthreadKill] at hkill
  split at hkill
  · next hnone =>
      obtain rfl := Option.some.inj hkill
      exact Or.inl ⟨Or.inr fun h => by simp [acquireThread, h.1] at hnone, rfl⟩
  · next thread hfound =>
      obtain ⟨hmem, rfl⟩ := acquireThread_eq_some.mp hfound
      split at hkill
      · next hpriv =>
          obtain rfl := Option.some.inj hkill
          exact Or.inl ⟨Or.inr fun h => h.2 hpriv, rfl⟩
      · next hpriv =>
          cases sig with
          | none =>
              obtain rfl := Option.some.inj hkill
              exact Or.inl ⟨Or.inl rfl, rfl⟩
          | some s =>
              simp only [Option.bind_eq_bind, Option.bind_eq_some_iff, Option.some.injEq] at hkill
              obtain ⟨k₁, hsig, rfl⟩ := hkill
              exact Or.inr ⟨s, rfl, ⟨hmem, hpriv⟩, hsig⟩

theorem sysKill_cases {pid : Pid} {sig : Option Signal} {r : SysResult}
    (hkill : k.sysKill pid sig = some r) :
    ((sig = none ∨ pid ∉ k.tasksList) ∧ r.1 = k) ∨
      ∃ s, sig = some s ∧ pid ∈ k.tasksList ∧ k.signalTask pid s = some r.1 := by
  simp only [Kernel.sysKill, acquireTask] at hkill
  split at hkill
  · next hnone =>
      obtain rfl := Option.some.inj hkill
      exact Or.inl ⟨Or.inr (by simpa using hnone), rfl⟩
  · obtain rfl := Option.some.inj hkill
    exact Or.inl ⟨Or.inl rfl, rfl⟩
  · next task s hfound =>
      obtain ⟨hmem, rfl⟩ : pid ∈ k.tasksList ∧ pid = task := by simpa using hfound
      simp only [Option.bind_eq_bind, Option.bind_eq_some_iff, Option.some.injEq] at hkill
      obtain ⟨k₁, hsig, rfl⟩ := hkill
      exact Or.inr ⟨s, rfl, hmem, hsig⟩

theorem sysRaise_cases {sig : Option Signal} {r : SysResult} (hraise : k.sysRaise sig = some r) :
    ((sig = none ∨ k.currentTaskInfo = none) ∧ r.1 = k) ∨
      ∃ s task, sig = some s ∧ k.currentTaskInfo = some task ∧
        k.signalTask task s = some r.1 := by
  simp only [Kernel.sysRaise] at hraise
  split at hraise
  · next hnone =>
      obtain rfl := Option.some.inj hraise
      exact Or.inl ⟨Or.inr hnone, rfl⟩
  · obtain rfl := Option.some.inj hraise
    exact Or.inl ⟨Or.inl rfl, rfl⟩
  · next task s htask =>
      simp only [Option.bind_eq_bind, Option.bind_eq_some_iff, Option.some.injEq] at hraise
      obtain ⟨k₁, hsig, rfl⟩ := hraise
      exact Or.inr ⟨s, task, rfl, htask, hsig⟩

theorem sysPthreadSetschedparam_cases (k : Kernel) (tid : Tid) (schedPriority : Int) :
    (¬ k.Settable tid schedPriority ∧
      ∃ error, k.sysPthreadSetschedparam tid schedPriority = (k, .error error)) ∨
    (k.Settable tid schedPriority ∧ k.sysPthreadSetschedparam tid schedPriority =
      (k.setThread tid fun i =>
        if i.priorityInherited then { i with originalPriority := Fin.ofNat _ schedPriority.toNat }
        else { i with priority := Fin.ofNat _ schedPriority.toNat }, .ok ())) := by
  rw [sysPthreadSetschedparam]
  split
  · next hnone =>
      exact Or.inl ⟨fun h => by simp [acquireThread, h.1] at hnone, _, rfl⟩
  · next thread hfound =>
      obtain ⟨hmem, rfl⟩ := acquireThread_eq_some.mp hfound
      split
      · next hprivilege => exact Or.inl ⟨fun h => h.2.1 hprivilege, _, rfl⟩
      · next hprivilege =>
          split
          · next hrange =>
              refine Or.inl ⟨fun h => ?_, _, rfl⟩
              obtain ⟨hlow, hhigh⟩ := h.2.2
              omega
          · next hrange =>
              rw [not_or, not_lt, not_lt] at hrange
              exact Or.inr ⟨⟨hmem, hprivilege, hrange⟩, rfl⟩

theorem Consistent.signalTask {task : Pid} {sig : Signal} (hinv : Consistent k)
    (hok : k.SignalOk (k.taskThreads task) (some sig))
    (hsig : k.signalTask task sig = some k') : Consistent k' := by
  have hreg := hinv.choose_spec.2.taskThreads task
  exact hinv.signal hreg.1 (fun t ht => (hreg.2 t ht).1) hok hsig

theorem Threaded.pollNotify (hT : Threaded k A L) (polls : Tid → Bool) :
    ∃ k' L', k.pollNotify polls = some k' ∧ Threaded k' A L' ∧ Wakes {.poll} k L k' L' := by
  obtain ⟨k', L', hk', hT', hW, -⟩ := hT.wakeLoop (h := .poll)
    (fun k t => if polls t then k.finishWait t else k)
    (fun t => polls t && decide (t ≠ k.runningThread)) poll_inUse (by simp) fun k₁ L₁ t hW => by
      by_cases hp : polls t = true
      · simp [hp, Kernel.finishWait, hW.runningThread]
      · simp [hp]
  exact ⟨k', L', hk', hT', hW⟩

/-- The threads that lived are as they were, and at most a new one is asleep. -/
structure Grown (k : Kernel) (L : SchedList → List Tid) (k' : Kernel) (A : Set Tid)
    (L' : SchedList → List Tid) : Prop where
  threaded : Threaded k' A L'
  threads : ∀ t, k.Alive t → k'.threads t = k.threads t
  lists : L' = L ∨ ∃ u, L' = enqueue L u .sleep
  timeoutList : k'.timeoutList = k.timeoutList

theorem Grown.mem (hg : Grown k L k' A L') (ht : t ∈ L h) : t ∈ L' h := by
  obtain rfl | ⟨u, rfl⟩ := hg.lists
  · exact ht
  · exact mem_enqueue.mpr (Or.inl ht)

theorem Grown.enterTask {u : Tid} (hg : Grown k L k' A L') (hu : ¬ k.Alive u) (task : Pid)
    (l : List Tid) : Grown k L (k'.enterTask u task l) A L' := by
  refine ⟨hg.threaded.enterTask, fun t ht => ?_, hg.lists, hg.timeoutList⟩
  have htu : t ≠ u := fun h => hu (h ▸ ht)
  simpa [Kernel.enterTask, Kernel.setThread, htu] using hg.threads t ht

namespace Threaded

theorem threadCreate {attr : ThreadAttr} {kernelThread stack : Bool} {r : Except Errno Tid}
    (hT : Threaded k {t | k.Alive t} L)
    (hcreate : k.threadCreate attr kernelThread stack = (k', r)) :
    ∃ A L', Grown k L k' A L' ∧ ∀ u, r = .ok u → ¬ k.Alive u := by
  obtain ⟨e, he⟩ | ⟨u, hlt, hdead, he | ⟨k₁, he, hlinks, hthreads, hst, hbitmap, -, -, htimeouts,
      hrun⟩⟩ := threadCreate_cases k attr kernelThread stack
  · obtain ⟨rfl, rfl⟩ := Prod.mk.inj (he.symm.trans hcreate)
    exact ⟨_, L, ⟨hT, fun _ _ => rfl, Or.inl rfl, rfl⟩, by simp⟩
  · obtain ⟨rfl, rfl⟩ := Prod.mk.inj (he.symm.trans hcreate)
    refine ⟨_, L, ⟨hT.zeroSlot hdead, fun t ht => ?_, Or.inl rfl, rfl⟩, by simp⟩
    have htu : t ≠ u := fun h => hdead (h ▸ ht)
    simp [Kernel.setThread, htu]
  · obtain ⟨rfl, rfl⟩ := Prod.mk.inj (he.symm.trans hcreate)
    refine ⟨_, _, ⟨hT.create hdead hdead hlt hlinks hthreads hst hbitmap hrun,
      fun t ht => hthreads t fun h => hdead (h ▸ ht), Or.inr ⟨u, rfl⟩, htimeouts⟩, fun v hv => ?_⟩
    obtain rfl : u = v := Except.ok.inj hv
    exact hdead

theorem sysPthreadCreate {attr : Option ThreadAttr} {stack : Bool} {r : Except Errno Tid}
    (hT : Threaded k {t | k.Alive t} L)
    (hcreate : k.sysPthreadCreate attr stack = some (k', r)) : ∃ A L', Grown k L k' A L' := by
  obtain ⟨_, _, ⟨_, hk₁⟩ | ⟨k₁, u, task, hk₁, -, rfl⟩⟩ := sysPthreadCreate_cases hcreate
  · obtain ⟨A, L', hg, -⟩ := hT.threadCreate hk₁
    exact ⟨A, L', hg⟩
  · obtain ⟨A, L', hg, hnew⟩ := hT.threadCreate hk₁
    exact ⟨A, L', hg.enterTask (hnew u rfl) task _⟩

theorem taskCreate {priority : Int} {kernelThread stack : Bool} {r : Option Pid}
    (hT : Threaded k {t | k.Alive t} L)
    (hcreate : k.taskCreate priority kernelThread stack = (k', r)) :
    ∃ A L', Grown k L k' A L' := by
  obtain ⟨_, hk₁⟩ | ⟨k₁, u, pid, hk₁, -, rfl⟩ := taskCreate_cases hcreate
  · obtain ⟨A, L', hg, -⟩ := hT.threadCreate hk₁
    exact ⟨A, L', hg⟩
  · obtain ⟨A, L', hg, hnew⟩ := hT.threadCreate hk₁
    obtain ⟨hT', hthreads, hlists, htimeouts⟩ := hg.enterTask (hnew u rfl) pid [u]
    exact ⟨A, L', hT'.of_status rfl rfl rfl fun _ => rfl, hthreads, hlists, htimeouts⟩

end Threaded

/-- A call that sends no signal and waits for none. -/
def Silent (k : Kernel) : KernelCall → Prop
  | .pthreadKill tid sig => sig = none ∨ ¬ k.Receives tid
  | .kill pid sig => sig = none ∨ pid ∉ k.tasksList
  | .raise sig => sig = none ∨ k.currentTaskInfo = none
  | .sigwait set => set = none
  | _ => True

/-- What a call of the running thread that meets its condition does. -/
inductive CallStep (k : Kernel) : KernelCall → Kernel → Prop
  | same {c : KernelCall} (hc : k.Silent c) : CallStep k c k
  | queues {c : KernelCall} {g : SchedList} (hc : k.Silent c) (ticks : ThreadInfo → BitVec 32)
      (size : ThreadInfo → Nat) (hst : k.Unqueued) (hin : g ∈ inUse {t | k.Alive t})
      (hready : ∀ p, g ≠ .ready p) (hjoin : g ≠ .join k.runningThread)
      (hkind : g ≠ .poll ∧ ∀ t, g = .join t → c = .pthreadJoin t) :
      CallStep k c ((k.setThread k.runningThread fun i =>
        { i with sleepTicks := ticks i, fileRequestSize := size i }).prepareToWait g
          k.runningThread .wait)
  | awaits (set : List Signal) (hst : k.Unqueued) :
      CallStep k (.sigwait (some set)) (k.sysSigwait (some set)).1
  | polls (timeout : Int) (hst : k.Unqueued) : CallStep k (.poll timeout) (k.sysPoll timeout)
  | detaches (tid : Tid) :
      CallStep k (.pthreadDetach tid) (k.setThread tid fun i => { i with detached := true })
  | setsPriority (tid : Tid) (schedPriority : Int) (priority original : ThreadInfo → Priority) :
      CallStep k (.pthreadSetschedparam tid schedPriority) (k.setThread tid fun i =>
        { i with priority := priority i, originalPriority := original i })
  | threadExits {k₁ : Kernel} (hok : k.ThreadExitOk) (h : k.threadJoinHandler = some k₁) :
      CallStep k .pthreadExit k₁
  | exits {k₁ : Kernel} (hok : k.ExitOk) (h : k.sysExit = some k₁) : CallStep k .exit k₁
  | cancels {k₁ : Kernel} (tid : Tid) (hreceives : k.Receives tid) (hok : k.Killable [tid])
      (h : k.threadDelete tid = some k₁) : CallStep k (.pthreadCancel tid) k₁
  | signals {k₁ : Kernel} (tid : Tid) (s : Signal) (hreceives : k.Receives tid)
      (hok : k.SignalOk [tid] (some s)) (h : k.handleSignal tid s = some k₁) :
      CallStep k (.pthreadKill tid (some s)) k₁
  | kills {k₁ : Kernel} (pid : Pid) (s : Signal) (hmem : pid ∈ k.tasksList)
      (hok : k.SignalOk (k.taskThreads pid) (some s)) (h : k.signalTask pid s = some k₁) :
      CallStep k (.kill pid (some s)) k₁
  | raises {k₁ : Kernel} (task : Pid) (s : Signal) (htask : k.currentTaskInfo = some task)
      (hok : k.SignalOk (k.taskThreads task) (some s)) (h : k.signalTask task s = some k₁) :
      CallStep k (.raise (some s)) k₁
  | creates (attr : Option ThreadAttr) (stack : Bool) {r : Kernel × Except Errno Tid}
      (h : k.sysPthreadCreate attr stack = some r) : CallStep k (.pthreadCreate attr stack) r.1
  | createsTask (priority : Int) (kernelThread stack : Bool) :
      CallStep k (.taskCreate priority kernelThread stack)
        (k.taskCreate priority kernelThread stack).1

theorem runCall_cases {c : KernelCall} (hT : Threaded k {t | k.Alive t} L) (hR : Registered k)
    (hok : k.CallOk c) (hcall : k.runCall c = some k') : CallStep k c k' := by
  cases c with
  | delayTicks ticks =>
      obtain rfl := Option.some.inj hcall
      exact .queues (by trivial) (fun _ => ticks) ThreadInfo.fileRequestSize hok Threaded.sleep_inUse
        (by simp) (by simp) (by simp)
  | schedYield =>
      obtain rfl := Option.some.inj hcall
      have hstep : CallStep k .schedYield _ :=
        .queues (by trivial) ThreadInfo.sleepTicks ThreadInfo.fileRequestSize hok Threaded.sleep_inUse
          (by simp) (by simp) (by simp)
      rwa [setThread_id] at hstep
  | wait queue =>
      obtain rfl := Option.some.inj hcall
      have hstep : CallStep k (.wait queue) _ :=
        .queues (by trivial) ThreadInfo.sleepTicks ThreadInfo.fileRequestSize hok.1
          (QueueAlive.inUse hok.2) (by simp) (by simp) (by simp)
      rwa [setThread_id] at hstep
  | fifoWait queue size =>
      obtain rfl := Option.some.inj hcall
      exact .queues (by trivial) ThreadInfo.sleepTicks (fun _ => size) hok.1 (QueueAlive.inUse hok.2)
        (by simp) (by simp) (by simp)
  | initQueue queue =>
      obtain rfl := Option.some.inj hcall
      have hin := QueueAlive.inUse hok.1
      have hsame := initListHead_eq_self hT hin ((hT.members_eq hin).symm.trans hok.2)
      rw [hsame]
      exact .same trivial
  | poll timeout =>
      obtain rfl := Option.some.inj hcall
      exact .polls timeout hok
  | sigwait set =>
      obtain rfl := Option.some.inj hcall
      cases set with
      | none => exact .same rfl
      | some set => exact .awaits set (hok rfl)
  | pthreadJoin tid =>
      obtain ⟨r, hr, rfl⟩ := Option.map_eq_some_iff.mp hcall
      obtain ⟨-, heq, -⟩ | ⟨hjoins, rfl⟩ := sysPthreadJoin_cases hr
      · rw [heq]
        exact .same trivial
      · obtain ⟨hst, hother⟩ := hok hjoins
        have hstep : CallStep k (.pthreadJoin tid) _ :=
          .queues (by trivial) ThreadInfo.sleepTicks ThreadInfo.fileRequestSize hst
            (hR.join_inUse hjoins) (by simp) (by simpa using hother) (by simp)
        rwa [setThread_id] at hstep
  | pthreadDetach tid =>
      obtain rfl := Option.some.inj hcall
      rw [sysPthreadDetach]
      split
      · exact .detaches tid
      · exact .same trivial
  | pthreadExit => exact .threadExits hok hcall
  | exit => exact .exits hok hcall
  | pthreadCancel tid =>
      obtain ⟨r, hr, rfl⟩ := Option.map_eq_some_iff.mp hcall
      obtain ⟨-, heq⟩ | ⟨hreceives, hdelete⟩ := sysPthreadCancel_cases hr
      · rw [heq]
        exact .same trivial
      · exact .cancels tid hreceives (hok hreceives) hdelete
  | pthreadKill tid sig =>
      obtain ⟨r, hr, rfl⟩ := Option.map_eq_some_iff.mp hcall
      obtain ⟨hsilent, heq⟩ | ⟨s, rfl, hreceives, hsig⟩ := sysPthreadKill_cases hr
      · rw [heq]
        exact .same hsilent
      · exact .signals tid s hreceives (hok hreceives) hsig
  | kill pid sig =>
      obtain ⟨r, hr, rfl⟩ := Option.map_eq_some_iff.mp hcall
      obtain ⟨hsilent, heq⟩ | ⟨s, rfl, hmem, hsig⟩ := sysKill_cases hr
      · rw [heq]
        exact .same hsilent
      · exact .kills pid s hmem (hok hmem) hsig
  | raise sig =>
      obtain ⟨r, hr, rfl⟩ := Option.map_eq_some_iff.mp hcall
      obtain ⟨hsilent, heq⟩ | ⟨s, task, rfl, htask, hsig⟩ := sysRaise_cases hr
      · rw [heq]
        exact .same hsilent
      · exact .raises task s htask (hok task htask) hsig
  | pthreadCreate attr stack =>
      obtain ⟨r, hr, rfl⟩ := Option.map_eq_some_iff.mp hcall
      exact .creates attr stack hr
  | taskCreate priority kernelThread stack =>
      obtain rfl := Option.some.inj hcall
      exact .createsTask priority kernelThread stack
  | pthreadSetschedparam tid schedPriority =>
      obtain rfl := Option.some.inj hcall
      obtain ⟨-, _, heq⟩ | ⟨-, heq⟩ := sysPthreadSetschedparam_cases k tid schedPriority
      · rw [heq]
        exact .same trivial
      · obtain ⟨priority, original, hfields⟩ : ∃ priority original : ThreadInfo → Priority,
            (fun i : ThreadInfo =>
              if i.priorityInherited then
                { i with originalPriority := Fin.ofNat _ schedPriority.toNat }
              else { i with priority := Fin.ofNat _ schedPriority.toNat }) =
            fun i => { i with priority := priority i, originalPriority := original i } := by
          refine ⟨fun i => if i.priorityInherited then i.priority else Fin.ofNat _ schedPriority.toNat,
            fun i => if i.priorityInherited then Fin.ofNat _ schedPriority.toNat
              else i.originalPriority, ?_⟩
          funext i
          split
          next h => simp [h]
          next h => simp [h]
        rw [heq, hfields]
        exact .setsPriority tid schedPriority priority original

theorem Consistent.runCall {c : KernelCall} (hinv : Consistent k) (hexec : k.Executing)
    (hok : k.CallOk c) (hcall : k.runCall c = some k') : Consistent k' := by
  obtain ⟨L, hT, hR⟩ := id hinv
  cases runCall_cases hT hR hok hcall with
  | same _ => exact hinv
  | queues _ _ _ hst hin _ hjoin =>
      exact hinv.queueSelf hst (fun _ => ⟨rfl, rfl, rfl⟩) hin (by simp) hjoin
  | awaits set hst =>
      exact hinv.queueSelf hst (fun _ => ⟨rfl, rfl, rfl⟩) Threaded.suspend_inUse (by simp) (by simp)
  | polls timeout hst => exact hinv.sysPoll hexec hst
  | detaches tid => exact hinv.setThread fun _ => ⟨rfl, rfl, rfl⟩
  | setsPriority tid schedPriority priority original =>
      exact hinv.setThread fun _ => ⟨rfl, rfl, rfl⟩
  | threadExits hends h => exact hinv.threadJoinHandler hexec hends h
  | exits hends h => exact hinv.sysExit hends h
  | cancels tid hreceives hkillable h =>
      exact hinv.threadDelete (hR.threadsList.2 tid hreceives.1) hkillable h
  | signals tid s hreceives hsignal h =>
      exact hinv.signal (List.nodup_singleton tid) (by simpa using hR.threadsList.2 tid hreceives.1)
        hsignal (by simpa using h)
  | kills pid s _ hsignal h => exact hinv.signalTask hsignal h
  | raises task s _ hsignal h => exact hinv.signalTask hsignal h
  | creates attr stack h => exact sysPthreadCreate_spec hinv h
  | createsTask priority kernelThread stack => exact (taskCreate_spec hinv rfl).1

/-- What an event that meets its condition does to the lists. -/
inductive EventStep (k : Kernel) (L : SchedList → List Tid) : KernelEvent → Kernel → Prop
  | call {k₁ : Kernel} {c : KernelCall} (hexec : k.Executing) (hok : k.CallOk c)
      (h : k.runCall c = some k₁) : EventStep k L (.call c) k₁
  | pollRet (hst : k.Unqueued) : EventStep k L .pollRet k.sysPollRet
  | syscallHandler : EventStep k L .syscallHandler k.syscallHandler
  | syscallReturn : EventStep k L .syscallReturn k.syscallReturnEventHandler
  | exits {k₁ : Kernel} (hmain : k.currentTaskInfo.map k.mainThread = some k.runningThread)
      (hok : k.ExitOk) (h : k.sysExit = some k₁) : EventStep k L .threadReturn k₁
  | threadExits {k₁ : Kernel} (hexec : k.Executing) (hok : k.ThreadExitOk)
      (h : k.threadJoinHandler = some k₁) : EventStep k L .threadReturn k₁
  | wakeUp {k₁ : Kernel} {L₁ : SchedList → List Tid} (queue : WaitQueue)
      (hT : Threaded k₁ {t | k.Alive t} L₁) (hW : Wakes {.wait queue} k L k₁ L₁) :
      EventStep k L (.wakeUp queue) k₁
  | wakeUpAll {k₁ : Kernel} {L₁ : SchedList → List Tid} (queue : WaitQueue)
      (hT : Threaded k₁ {t | k.Alive t} L₁) (hW : Wakes {.wait queue} k L k₁ L₁) :
      EventStep k L (.wakeUpAll queue) k₁
  | fifoWakeUp {k₁ : Kernel} {L₁ : SchedList → List Tid} (queue : WaitQueue) (availSize : Nat)
      (hT : Threaded k₁ {t | k.Alive t} L₁) (hW : Wakes {.wait queue} k L k₁ L₁) :
      EventStep k L (.fifoWakeUp queue availSize) k₁
  | pollNotify {k₁ : Kernel} {L₁ : SchedList → List Tid} (polls : Tid → Bool)
      (hT : Threaded k₁ {t | k.Alive t} L₁) (hW : Wakes {.poll} k L k₁ L₁) :
      EventStep k L (.pollNotify polls) k₁
  | taskletSchedule (tid : Tid) (hmem : tid ∈ k.threadsList) :
      EventStep k L (.taskletSchedule tid) (k.finishWait tid)
  | inheritPriority {k₁ : Kernel} {L₁ : SchedList → List Tid} (mutex : Mutex)
      (hT : Threaded k₁ {t | k.Alive t} L₁) (hraised : Raised k L k₁ L₁)
      (hfiled : FiledIn k L → FiledIn k₁ L₁) : EventStep k L (.inheritPriority mutex) k₁
  | resetInheritedPriority :
      EventStep k L .resetInheritedPriority k.threadResetInheritedPriority
  | systemTicks {k₁ : Kernel} (expired : Tid → Bool) (h : k.systemTicksUpdate expired = some k₁) :
      EventStep k L (.systemTicks expired) k₁
  | schedule {k₁ : Kernel} {L₁ : SchedList → List Tid} (h : k.schedule = some k₁)
      (hT : Threaded k₁ {t | k.Alive t} L₁) (hD : Dispatches k L k₁ L₁) : EventStep k L .schedule k₁

theorem step_cases {e : KernelEvent} (hT : Threaded k {t | k.Alive t} L) (hok : k.EventOk e)
    (hstep : k.step e = some k') : EventStep k L e k' := by
  cases e with
  | call c =>
      simp only [Kernel.step, Option.ite_none_right_eq_some] at hstep
      exact .call hstep.1.1 hok hstep.2
  | pollRet =>
      simp only [Kernel.step, Option.ite_none_right_eq_some, Option.some.injEq] at hstep
      exact hstep.2 ▸ .pollRet hstep.1.1
  | syscallHandler =>
      simp only [Kernel.step, Option.ite_none_right_eq_some, Option.some.injEq] at hstep
      exact hstep.2 ▸ .syscallHandler
  | syscallReturn =>
      obtain rfl := Option.some.inj hstep
      exact .syscallReturn
  | threadReturn =>
      simp only [Kernel.step, Option.ite_none_right_eq_some] at hstep
      obtain ⟨hexec, hret⟩ := hstep
      obtain ⟨task, htask, hret⟩ := Option.bind_eq_some_iff.mp hret
      simp only [EventOk] at hok
      split at hret
      · next hmain =>
          have hmain' : k.currentTaskInfo.map k.mainThread = some k.runningThread := by
            rw [htask, Option.map_some, hmain]
          rw [if_pos hmain'] at hok
          exact .exits hmain' hok hret
      · next hmain =>
          rw [htask, Option.map_some, if_neg fun h => hmain (Option.some.inj h).symm] at hok
          exact .threadExits hexec hok hret
  | wakeUp queue =>
      obtain ⟨-, heq⟩ | ⟨pre, t, post, hl, -, -, -, heq⟩ := hT.wakeUp (QueueAlive.inUse hok)
      · obtain rfl : k = k' := Option.some.inj (heq.symm.trans hstep)
        exact .wakeUp queue hT (Wakes.refl _ k L)
      · obtain rfl : k.makeReady t = k' := Option.some.inj (heq.symm.trans hstep)
        have ht : t ∈ L (.wait queue) := hl ▸ List.mem_append_right _ List.mem_cons_self
        exact .wakeUp queue (hT.makeReady ht) (Wakes.makeReady hT ht (Set.mem_singleton _))
  | wakeUpAll queue =>
      obtain ⟨k₁, L₁, hk₁, hT₁, hW, -⟩ := hT.wakeUpAll (QueueAlive.inUse hok) (by simp)
      obtain rfl : k₁ = k' := Option.some.inj (hk₁.symm.trans hstep)
      exact .wakeUpAll queue hT₁ hW
  | fifoWakeUp queue availSize =>
      obtain ⟨k₁, L₁, hk₁, hT₁, hW⟩ := hT.fifoWakeUp (QueueAlive.inUse hok)
      obtain rfl : k₁ = k' := Option.some.inj (hk₁.symm.trans hstep)
      exact .fifoWakeUp queue availSize hT₁ hW
  | pollNotify polls =>
      obtain ⟨k₁, L₁, hk₁, hT₁, hW⟩ := hT.pollNotify polls
      obtain rfl : k₁ = k' := Option.some.inj (hk₁.symm.trans hstep)
      exact .pollNotify polls hT₁ hW
  | taskletSchedule tid =>
      obtain ⟨thread, hfound, rfl⟩ := Option.map_eq_some_iff.mp hstep
      obtain ⟨hmem, rfl⟩ := acquireThread_eq_some.mp hfound
      exact .taskletSchedule tid hmem
  | inheritPriority mutex =>
      obtain ⟨L', hT', hraised, hfiled, -⟩ := hT.threadInheritPriority hstep
      exact .inheritPriority mutex hT' hraised hfiled
  | resetInheritedPriority =>
      obtain rfl := Option.some.inj hstep
      exact .resetInheritedPriority
  | systemTicks expired => exact .systemTicks expired hstep
  | schedule =>
      obtain ⟨L', hT', hD⟩ := hT.schedule hstep
      exact .schedule hstep hT' hD

theorem Consistent.step {e : KernelEvent} (hinv : Consistent k) (hok : k.EventOk e)
    (hstep : k.step e = some k') : Consistent k' := by
  obtain ⟨L, hT, hR⟩ := id hinv
  cases step_cases hT hok hstep with
  | call hexec hcall h => exact hinv.runCall hexec hcall h
  | pollRet => exact hinv.sysPollRet
  | syscallHandler => exact hinv.setThread fun _ => ⟨rfl, rfl, rfl⟩
  | syscallReturn => exact hinv.setThread fun _ => ⟨rfl, rfl, rfl⟩
  | exits _ hends h => exact hinv.sysExit hends h
  | threadExits hexec hends h => exact hinv.threadJoinHandler hexec hends h
  | wakeUp _ hT₁ hW | wakeUpAll _ hT₁ hW | fifoWakeUp _ _ hT₁ hW | pollNotify _ hT₁ hW =>
      exact wakes hR hT₁ hW
  | taskletSchedule tid hmem =>
      obtain ⟨L', hT', hW⟩ := hT.finishWait (hR.threadsList.2 _ hmem)
      exact wakes hR hT' hW
  | inheritPriority mutex hT' hraised =>
      exact of_threaded hT' (hraised.registered hR) (by rw [hraised.rest])
  | resetInheritedPriority =>
      refine hinv.setThread fun i => ?_
      split <;> exact ⟨rfl, rfl, rfl⟩
  | systemTicks expired h =>
      obtain ⟨k₁, L₁, hk₁, hT₁, hR₁, hbitmap⟩ := hT.systemTicksUpdate hR expired
      obtain rfl : k₁ = k' := Option.some.inj (hk₁.symm.trans h)
      exact of_threaded hT₁ hR₁ hbitmap
  | schedule _ hT' hD => exact of_threaded hT' (hD.registered hR) (by rw [hD.rest])

/-- In every run from the start of the kernel whose steps meet their condition, each
state has well-formed scheduling lists. -/
theorem schedLists_of_eventOk {es : List KernelEvent}
    (hok : Runs.AllOk EventOk Kernel.step schedStart es)
    (hrun : Runs.exec Kernel.step schedStart es = some k) : ∃ L, SchedLists k L :=
  (Runs.exec_invariant (fun _ _ _ hinv hok hstep => Consistent.step hinv hok hstep)
    schedStart_spec hok hrun).schedLists

/-- The start of the system: the idle thread creates the init thread and joins it, the
daemons go to sleep, init creates a task and returns, and the task gets the CPU. -/
def bootRun : List KernelEvent :=
  [.call (.pthreadCreate (some { schedPriority := kthreadPriMax - 1 }) true),
    .call (.pthreadJoin 4), .schedule,
    .call (.wait (.driver 0)), .schedule,
    .call (.fifoWait (.fifoRead 0) 4), .schedule,
    .call (.wait (.driver 1)), .schedule,
    .call (.taskCreate 1 false true), .threadReturn, .schedule]

theorem schedLists_of_eventOk_at_boot :
    ∃ k, Runs.exec Kernel.step schedStart bootRun = some k ∧ ∃ L, SchedLists k L := by
  have hrun : (Runs.exec Kernel.step schedStart bootRun).isSome = true := by decide +kernel
  obtain ⟨k, hk⟩ := Option.isSome_iff_exists.mp hrun
  exact ⟨k, hk, schedLists_of_eventOk (by decide +kernel) hk⟩

/-- The task creates a thread, which is put on the sleep list, and stops it. -/
def stopRun : List KernelEvent :=
  bootRun ++ [.syscallHandler, .call (.pthreadCreate none true), .syscallReturn,
    .syscallHandler, .call (.pthreadKill 4 (some .stop))]

/-- The stopped thread is the first one of the sleep list and of the suspend list. -/
theorem schedLists_not_for_stop :
    ∃ k, Runs.exec Kernel.step schedStart stopRun = some k ∧ ¬ ∃ L, SchedLists k L := by
  have hrun : (Runs.exec Kernel.step schedStart stopRun).map (fun k =>
      (k.links.next (.inl .sleep), k.links.next (.inl .suspend), k.runningThread)) =
      some (.inr 4, .inr 4, 5) := by decide +kernel
  obtain ⟨k, hk, hfacts⟩ := Option.map_eq_some_iff.mp hrun
  obtain ⟨hsleep, hsuspend, hrunning⟩ : k.links.next (.inl .sleep) = .inr 4 ∧
      k.links.next (.inl .suspend) = .inr 4 ∧ k.runningThread = 5 := by simpa using hfacts
  refine ⟨k, hk, fun ⟨L, hL⟩ => ?_⟩
  have hmem : ∀ h : SchedList, h.owner = none → k.links.next (.inl h) = .inr 4 → 4 ∈ L h := by
    intro h howner hnext
    have hhead := (hL.ring h (by simp [howner])).next_head
    change k.links.next (.inl h) = _ at hhead
    rw [hnext] at hhead
    cases hl : L h with
    | nil => simp [hl] at hhead
    | cons t l =>
        obtain rfl : 4 = t := by simpa [hl] using hhead
        exact List.mem_cons_self
  have h₁ := hmem .sleep rfl hsleep
  have h₂ := hmem .suspend rfl hsuspend
  have hne : (4 : Tid) ≠ k.runningThread := by simp [hrunning]
  have hsame := (hL.exactlyOne 4 (hL.live _ _ h₁).1 hne).unique h₁ h₂
  cases hsame

end Kernel

end Tenok
