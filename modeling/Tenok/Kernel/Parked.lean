import Tenok.Kernel.Books

/-!
Threads in `pthread_join` and `sigwait`. What takes a thread off a list looks at its list,
at its poll, at its status or at the signals it waits for; of a thread that joins another
it finds nothing of this, so that thread stays where it is until one of the two ends.
-/
namespace Tenok
open Ring Queues

namespace Kernel
variable {k k' : Kernel} {A : Set Tid} {L L' : SchedList → List Tid} {h g : SchedList} {t u : Tid}
  {S : Set SchedList}

/-- A thread that joins another waits for nothing else, and one that waits for a signal
is on the suspend list. -/
structure Parked (k : Kernel) (L : SchedList → List Tid) : Prop where
  joining : ∀ t, k.Alive t → ∀ u ∈ L (.join t), (k.threads u).status = .wait ∧
    (k.threads u).pollTimed = false ∧ (k.threads u).waitForSignal = false
  waiting : ∀ u, k.Alive u → (k.threads u).waitForSignal = true → u ∈ L .suspend ∧
    (k.threads u).status = .wait ∧ (k.threads u).pollTimed = false

/-- The join lists are as they were, and nobody has come to the poll list. -/
structure Stays (L L' : SchedList → List Tid) : Prop where
  joins : ∀ t, L' (.join t) = L (.join t)
  polls : ∀ t ∈ L' .poll, t ∈ L .poll

theorem Stays.refl (L : SchedList → List Tid) : Stays L L := ⟨fun _ => rfl, fun _ => id⟩

theorem Stays.trans {L'' : SchedList → List Tid} (h : Stays L L') (h' : Stays L' L'') :
    Stays L L'' :=
  ⟨fun t => (h'.joins t).trans (h.joins t), fun t ht => h.polls t (h'.polls t ht)⟩

theorem Stays.enqueue (hjoin : ∀ u, h ≠ .join u) (hpoll : h ≠ .poll) :
    Stays L (enqueue L t h) :=
  ⟨fun u => enqueue_of_ne (hjoin u).symm, fun u hu => by rwa [enqueue_of_ne hpoll.symm] at hu⟩

def KeepsJoins (A : Set Tid) (L : SchedList → List Tid) (k' : Kernel) : Prop :=
  ∃ L', Threaded k' A L' ∧ Parked k' L' ∧ Stays L L'

/-- The thread that `tasklet_schedule` wakes is a daemon, which neither joins nor waits
for a signal. -/
def TaskletOk (k : Kernel) : KernelEvent → Prop
  | .taskletSchedule tid => (k.threads tid).waitForSignal = false ∧
      ∀ t < threadMax, tid ∉ k.members (.join t)
  | _ => True

instance decidableTaskletOk (k : Kernel) : (e : KernelEvent) → Decidable (k.TaskletOk e)
  | .taskletSchedule _ => inferInstanceAs (Decidable (_ ∧ _))
  | .call _ | .pollRet | .syscallHandler | .syscallReturn | .threadReturn | .wakeUp _
  | .wakeUpAll _ | .fifoWakeUp _ _ | .pollNotify _ | .inheritPriority _
  | .resetInheritedPriority | .systemTicks _ | .schedule => inferInstanceAs (Decidable True)

namespace Parked

theorem frame (hP : Parked k L) (halive : ∀ t, k'.Alive t → k.Alive t)
    (hlists : ∀ g, (g = .suspend ∨ ∃ u, g = .join u) → L' g = L g ∧
      ∀ t ∈ L g, (k'.threads t).status = (k.threads t).status)
    (hinfo : ∀ t, (k'.threads t).pollTimed = (k.threads t).pollTimed ∧
      (k'.threads t).waitForSignal = (k.threads t).waitForSignal) : Parked k' L' where
  joining t ht u hu := by
    obtain ⟨heq, hstatus⟩ := hlists (.join t) (Or.inr ⟨t, rfl⟩)
    rw [heq] at hu
    rw [hstatus u hu, (hinfo u).1, (hinfo u).2]
    exact hP.joining t (halive t ht) u hu
  waiting u hu hsig := by
    obtain ⟨heq, hstatus⟩ := hlists .suspend (Or.inl rfl)
    rw [(hinfo u).2] at hsig
    obtain ⟨hmem, hst, hpoll⟩ := hP.waiting u (halive u hu) hsig
    rw [heq, hstatus u hmem, (hinfo u).1]
    exact ⟨hmem, hst, hpoll⟩

theorem setThread {f : ThreadInfo → ThreadInfo} (hP : Parked k L)
    (hf : ∀ i, (f i).status = i.status ∧ (f i).pollTimed = i.pollTimed ∧
      (f i).waitForSignal = i.waitForSignal) : Parked (k.setThread t f) L := by
  have hsame : ∀ u, ((k.setThread t f).threads u).status = (k.threads u).status ∧
      ((k.setThread t f).threads u).pollTimed = (k.threads u).pollTimed ∧
      ((k.setThread t f).threads u).waitForSignal = (k.threads u).waitForSignal := by
    intro u
    by_cases hut : u = t
    · subst hut
      simpa [Kernel.setThread] using hf _
    · simp [Kernel.setThread, hut]
  exact hP.frame (fun _ => id) (fun g _ => ⟨rfl, fun u _ => (hsame u).1⟩) fun u => (hsame u).2

theorem wakes (hP : Parked k L) (hW : Wakes S k L k' L') (hsuspend : SchedList.suspend ∉ S)
    (hjoin : ∀ t, SchedList.join t ∉ S) : Parked k' L' ∧ Stays L L' := by
  refine ⟨hP.frame (fun t ht => ?_) ?_ fun t => by rw [hW.info t]; simp,
    fun t => hW.others _ (hjoin t) (by simp), hW.leaves _ (by simp)⟩
  · rwa [Alive, hW.rest] at ht
  · rintro g (rfl | ⟨u, rfl⟩)
    · exact ⟨hW.others _ hsuspend (by simp), fun t ht => by
        rw [hW.stays _ hsuspend (by simp) t ht]⟩
    · exact ⟨hW.others _ (hjoin u) (by simp), fun t ht => by
        rw [hW.stays _ (hjoin u) (by simp) t ht]⟩

theorem dispatches (hP : Parked k L) (hD : Dispatches k L k' L') :
    Parked k' L' ∧ Stays L L' := by
  refine ⟨hP.frame (fun t ht => ?_) ?_ fun t => by rw [hD.info t]; simp,
    fun t => hD.others _ (by simp) (by simp), fun t ht => ?_⟩
  · rwa [Alive, hD.rest] at ht
  · rintro g (rfl | ⟨u, rfl⟩)
    · exact ⟨hD.others _ (by simp) (by simp), fun t ht => by
        rw [hD.stays _ (by simp) (by simp) t ht]⟩
    · exact ⟨hD.others _ (by simp) (by simp), fun t ht => by
        rw [hD.stays _ (by simp) (by simp) t ht]⟩
  · rwa [hD.others _ (by simp) (by simp)] at ht

theorem raised (hP : Parked k L) (hR : Raised k L k' L') :
    Parked k' L' ∧ Stays L L' := by
  refine ⟨hP.frame (fun t ht => ?_) ?_ fun t => by rw [hR.info t]; simp,
    fun t => hR.others _ (by simp), fun t ht => ?_⟩
  · rwa [Alive, hR.rest] at ht
  · rintro g (rfl | ⟨u, rfl⟩)
    · exact ⟨hR.others _ (by simp), fun t _ => by rw [hR.info t]⟩
    · exact ⟨hR.others _ (by simp), fun t _ => by rw [hR.info t]⟩
  · rwa [hR.others _ (by simp)] at ht

theorem enqueue (hP : Parked k L) (hfree : ∀ g, t ∉ L g) (halive : ∀ u, k'.Alive u → k.Alive u)
    (hthreads : ∀ u, u ≠ t → k'.threads u = k.threads u)
    (hjoin : (∃ u, h = .join u) → (k'.threads t).status = .wait ∧
      (k'.threads t).pollTimed = false ∧ (k'.threads t).waitForSignal = false)
    (hwait : (k'.threads t).waitForSignal = true → h = .suspend ∧
      (k'.threads t).status = .wait ∧ (k'.threads t).pollTimed = false) :
    Parked k' (enqueue L t h) where
  joining u hu v hv := by
    obtain hv | ⟨rfl, rfl⟩ := mem_enqueue.mp hv
    · rw [hthreads v fun hvt => hfree _ (hvt ▸ hv)]
      exact hP.joining u (halive u hu) v hv
    · exact hjoin ⟨u, rfl⟩
  waiting u hu hsig := by
    by_cases hut : u = t
    · subst hut
      obtain ⟨rfl, hst⟩ := hwait hsig
      exact ⟨mem_enqueue.mpr (Or.inr ⟨rfl, rfl⟩), hst⟩
    · rw [hthreads u hut] at hsig ⊢
      obtain ⟨hmem, hst⟩ := hP.waiting u (halive u hu) hsig
      exact ⟨mem_enqueue.mpr (Or.inl hmem), hst⟩

theorem makeReady (hP : Parked k L) (hT : Threaded k A L) (ht : t ∈ L g)
    (hjoin : ∀ u, t ∉ L (.join u)) (hsig : (k.threads t).waitForSignal = false) :
    KeepsJoins A L (k.makeReady t) := by
  have hthreads : ∀ u, u ≠ t → (k.makeReady t).threads u = k.threads u :=
    (Touched.makeReady t k).threads
  have hlist : ∀ u, transfer L t (.ready (k.threads t).priority) (.join u) = L (.join u) :=
    fun u => by rw [transfer, enqueue_of_ne (by simp), dequeue_of_notMem (hjoin u)]
  refine ⟨_, hT.makeReady ht, ⟨fun u hu v hv => ?_, fun u hu hw => ?_⟩, hlist, fun u hu =>
    ((hT.rings.mem_transfer.mp hu).resolve_right (by simp)).2⟩
  · rw [hlist] at hv
    rw [hthreads v fun hvt => hjoin u (hvt ▸ hv)]
    exact hP.joining u ((Touched.makeReady t k).alive.mp hu) v hv
  · have hut : u ≠ t := by
      rintro rfl
      simp [Kernel.makeReady, setStatus, Kernel.setThread, hsig] at hw
    rw [hthreads u hut] at hw ⊢
    obtain ⟨hmem, hst⟩ := hP.waiting u ((Touched.makeReady t k).alive.mp hu) hw
    exact ⟨hT.rings.mem_transfer.mpr (Or.inl ⟨hut, hmem⟩), hst⟩

theorem finishWait (hP : Parked k L) (hT : Threaded k A L) (ht : k.Alive t)
    (hjoin : ∀ u, t ∉ L (.join u)) (hsig : (k.threads t).waitForSignal = false) :
    KeepsJoins A L (k.finishWait t) := by
  rw [Kernel.finishWait]
  split
  · next hrun =>
      obtain ⟨g, hg⟩ := hT.exists_mem ht hrun
      exact hP.makeReady hT hg hjoin hsig
  · exact ⟨L, hT, hP, Stays.refl L⟩

theorem of_pollTimed (hP : Parked k L) (hT : Threaded k {t | k.Alive t} L) (ht : k.Alive t)
    (hpoll : (k.threads t).pollTimed = true) :
    (∀ u, t ∉ L (.join u)) ∧ (k.threads t).waitForSignal = false := by
  refine ⟨fun u hu => ?_, ?_⟩
  · simpa [hpoll] using (hP.joining u (hT.rings.inUse hu u rfl) t hu).2.1
  · by_contra hw
    simpa [hpoll] using (hP.waiting t ht (by simpa using hw)).2.2

theorem of_waiting (hP : Parked k L) (hT : Threaded k A L) (ht : k.Alive t)
    (hsig : (k.threads t).waitForSignal = true) : ∀ u, t ∉ L (.join u) := by
  intro u hu
  cases hT.rings.unique (hP.waiting t ht hsig).1 hu

theorem foldl_finishWait {c : Tid → Bool} {l : List Tid} (hP : Parked k L)
    (hT : Threaded k {t | k.Alive t} L)
    (hl : ∀ t ∈ l, k.Alive t ∧ (k.threads t).pollTimed = true) :
    KeepsJoins {t | k.Alive t} L (l.foldl (fun k t => if c t then k.finishWait t else k) k) := by
  induction l generalizing k L with
  | nil => exact ⟨L, hT, hP, Stays.refl L⟩
  | cons t l ih =>
      have hl' : ∀ u ∈ l, k.Alive u ∧ (k.threads u).pollTimed = true :=
        fun u hu => hl u (List.mem_cons_of_mem _ hu)
      rw [List.foldl_cons]
      split
      · obtain ⟨halive, hpoll⟩ := hl t List.mem_cons_self
        obtain ⟨hjoin, hsig⟩ := hP.of_pollTimed hT halive hpoll
        obtain ⟨L₁, hT₁, hP₁, hL₁⟩ := hP.finishWait hT halive hjoin hsig
        have htouched := Touched.finishWait t k
        have hset : {t | k.Alive t} = {u | (k.finishWait t).Alive u} :=
          Set.ext fun u => htouched.alive.symm
        have hpolls : ∀ u, (k.threads u).pollTimed = true →
            ((k.finishWait t).threads u).pollTimed = true := fun u hu => by
          by_cases hut : u = t
          · rw [hut] at hu ⊢
            exact htouched.pollTimed.trans hu
          · rwa [htouched.threads u hut]
        obtain ⟨L₂, hT₂, hP₂, hL₂⟩ := ih hP₁ (hset ▸ hT₁) fun u hu =>
          ⟨htouched.alive.mpr (hl' u hu).1, hpolls u (hl' u hu).2⟩
        exact ⟨L₂, hset ▸ hT₂, hP₂, hL₁.trans hL₂⟩
      · exact ih hP hT hl'

theorem systemTicks {expired : Tid → Bool} (hP : Parked k L) (hT : Threaded k {t | k.Alive t} L)
    (hR : Registered k) (hticks : k.systemTicksUpdate expired = some k') :
    KeepsJoins {t | k.Alive t} L k' := by
  obtain ⟨threads, hupdate, hinfo⟩ := hT.threadsTicksUpdate
  have hsame : ∀ t, (threads t).status = (k.threads t).status ∧
      (threads t).pollTimed = (k.threads t).pollTimed ∧
      (threads t).waitForSignal = (k.threads t).waitForSignal := fun t => by
    rw [(hinfo t).1]
    exact ⟨rfl, rfl, rfl⟩
  have hP₁ : Parked { k with threads } L :=
    hP.frame (fun _ => id) (fun g _ => ⟨rfl, fun t _ => (hsame t).1⟩) fun t => (hsame t).2
  have hT₁ : Threaded { k with threads } {t | k.Alive t} L :=
    hT.of_status rfl rfl rfl fun t => (hsame t).1
  have hfold := hP₁.foldl_finishWait (c := expired) (l := k.timeoutList) hT₁ fun t ht =>
    ⟨(hR.timeoutList.2 t ht).1, (hsame t).2.1.trans (hR.timeoutList.2 t ht).2⟩
  rw [Kernel.systemTicksUpdate, hupdate] at hticks
  exact Option.some.inj hticks ▸ hfold

theorem endSigwait (hP : Parked k L) (hT : Threaded k A L) (ht : k.Alive t) (sig : Signal) :
    KeepsJoins A L (k.endSigwait t sig) := by
  rw [Kernel.endSigwait]
  split
  · next hwait =>
      have hjoin := hP.of_waiting hT ht hwait.1
      have hother : ∀ u, u ≠ t →
          (k.setThread t fun i => { i with waitForSignal := false }).threads u = k.threads u :=
        fun u hu => by simp [Kernel.setThread, hu]
      have hP₁ : Parked (k.setThread t fun i => { i with waitForSignal := false }) L := by
        refine ⟨fun u hu v hv => ?_, fun u hu hw => ?_⟩
        · rw [hother v fun hvt => hjoin u (hvt ▸ hv)]
          exact hP.joining u hu v hv
        · have hut : u ≠ t := by
            rintro rfl
            simp [Kernel.setThread] at hw
          rw [hother u hut] at hw ⊢
          exact hP.waiting u hu hw
      have hT₁ : Threaded (k.setThread t fun i => { i with waitForSignal := false }) A L :=
        hT.setThread fun _ => rfl
      exact hP₁.finishWait hT₁ ht hjoin (by simp [Kernel.setThread])
  · exact ⟨L, hT, hP, Stays.refl L⟩

theorem threadSuspend (hP : Parked k L) (hT : Threaded k A L)
    (hst : (k.threads t).status = .running) : KeepsJoins A L (k.threadSuspend t) := by
  have hsig : (k.threads t).waitForSignal = false := by
    by_contra hw
    simpa [hst] using (hP.waiting t (hT.running t hst).2 (by simpa using hw)).2.1
  rw [Kernel.threadSuspend, if_neg (by simp [hst])]
  refine ⟨_, hT.prepareToWait Threaded.suspend_inUse hst (by simp) (by simp),
    hP.enqueue (hT.notMem_of_running hst) (fun _ => id) (Touched.prepareToWait t k _ _).threads
      (by simp) ?_, Stays.enqueue (by simp) (by simp)⟩
  simp [Kernel.prepareToWait, setStatus, Kernel.setThread, hsig]

theorem threadResume (hP : Parked k L) (hT : Threaded k {t | k.Alive t} L) (ht : k.Alive t) :
    KeepsJoins {t | k.Alive t} L (k.threadResume t) := by
  rw [Kernel.threadResume]
  split
  · exact ⟨L, hT, hP, Stays.refl L⟩
  · next hst =>
      rw [not_not] at hst
      obtain ⟨g, hg⟩ := (hT.linked_iff t).mpr ⟨ht, by simp [hst]⟩
      refine hP.makeReady hT hg (fun u hu => ?_) ?_
      · simpa [hst] using (hP.joining u (hT.rings.inUse hu u rfl) t hu).1
      · by_contra hw
        simpa [hst] using (hP.waiting t ht (by simpa using hw)).2.1

theorem handleSignal {sig : Signal} (hP : Parked k L) (hT : Threaded k {t | k.Alive t} L)
    (ht : k.Alive t) (hstop : sig = .stop → k.Stoppable t) (hkill : sig ≠ .kill)
    (hsig : k.handleSignal t sig = some k') : KeepsJoins {t | k.Alive t} L k' := by
  obtain ⟨L₁, hT₁, hP₁, hL₁⟩ := hP.endSigwait hT ht sig
  have htouched := Touched.endSigwait t k sig
  have hset : {t | k.Alive t} = {u | (k.endSigwait t sig).Alive u} :=
    Set.ext fun u => htouched.alive.symm
  have hafter : ∀ {k₂}, KeepsJoins {t | k.Alive t} L₁ k₂ → KeepsJoins {t | k.Alive t} L k₂ :=
    fun ⟨L₂, hT₂, hP₂, hL₂⟩ => ⟨L₂, hT₂, hP₂, hL₁.trans hL₂⟩
  cases sig with
  | kill => exact absurd rfl hkill
  | stop =>
      obtain rfl := Option.some.inj hsig
      obtain ⟨hrun, hst⟩ | ⟨hst, hwait⟩ := hstop rfl
      · exact hafter (hP₁.threadSuspend hT₁ ((Threaded.endSigwait_running .stop hrun).trans hst))
      · rw [Kernel.endSigwait, if_neg hwait, Kernel.threadSuspend, if_pos hst]
        exact ⟨L, hT, hP, Stays.refl L⟩
  | cont =>
      obtain rfl := Option.some.inj hsig
      have hresume := hP₁.threadResume (hset ▸ hT₁) (htouched.alive.mpr ht)
      exact hafter (hset ▸ hresume)
  | usr1 | usr2 | poll =>
      obtain rfl := Option.some.inj hsig
      exact ⟨L₁, hT₁, hP₁, hL₁⟩

theorem signal {sig : Signal} {T : List Tid} (hP : Parked k L) (hT : Threaded k {t | k.Alive t} L)
    (hnodup : T.Nodup) (halive : ∀ t ∈ T, k.Alive t) (hstop : ∀ t ∈ T, sig = .stop → k.Stoppable t)
    (hkill : sig ≠ .kill) (hsig : T.foldlM (fun k t => k.handleSignal t sig) k = some k') :
    KeepsJoins {t | k.Alive t} L k' := by
  induction T generalizing k L with
  | nil =>
      obtain rfl : k = k' := by simpa using hsig
      exact ⟨L, hT, hP, Stays.refl L⟩
  | cons t T ih =>
      rw [List.foldlM_cons, Option.bind_eq_bind, Option.bind_eq_some_iff] at hsig
      obtain ⟨k₁, hk₁, hrest⟩ := hsig
      obtain ⟨htT, hnodup⟩ := List.nodup_cons.mp hnodup
      have ht := halive t List.mem_cons_self
      have htouched := (handleSignal_touched hT ht (hstop t List.mem_cons_self) hkill hk₁).2
      have hset : {t | k.Alive t} = {u | k₁.Alive u} := Set.ext fun u => htouched.alive.symm
      obtain ⟨L₁, hT₁, hP₁, hL₁⟩ :=
        hP.handleSignal hT ht (hstop t List.mem_cons_self) hkill hk₁
      have hmem : ∀ u ∈ T, u ≠ t := fun u hu hut => htT (hut ▸ hu)
      obtain ⟨L₂, hT₂, hP₂, hL₂⟩ := ih hP₁ (hset ▸ hT₁) hnodup
        (fun u hu => htouched.alive.mpr (halive u (List.mem_cons_of_mem _ hu)))
        (fun u hu hs => Threaded.stoppable_frame htouched (hmem u hu)
          (hstop u (List.mem_cons_of_mem _ hu) hs)) hrest
      exact ⟨L₂, hset ▸ hT₂, hP₂, hL₁.trans hL₂⟩

theorem signal_induct {R : Kernel → Kernel → Prop} {sig : Signal} {T : List Tid}
    (hrefl : ∀ k, R k k) (htrans : ∀ {k k' k''}, R k k' → R k' k'' → R k k'')
    (hone : ∀ {k k' L t}, Parked k L → Threaded k {t | k.Alive t} L → t ∈ T → k.Alive t →
      (sig = .stop → k.Stoppable t) → k.handleSignal t sig = some k' → R k k')
    (hP : Parked k L) (hT : Threaded k {t | k.Alive t} L) (hnodup : T.Nodup)
    (halive : ∀ t ∈ T, k.Alive t) (hstop : ∀ t ∈ T, sig = .stop → k.Stoppable t)
    (hkill : sig ≠ .kill) (hsig : T.foldlM (fun k t => k.handleSignal t sig) k = some k') :
    R k k' := by
  induction T generalizing k L with
  | nil =>
      obtain rfl : k = k' := by simpa using hsig
      exact hrefl k
  | cons t T ih =>
      rw [List.foldlM_cons, Option.bind_eq_bind, Option.bind_eq_some_iff] at hsig
      obtain ⟨k₁, hk₁, hrest⟩ := hsig
      obtain ⟨htT, hnodup⟩ := List.nodup_cons.mp hnodup
      have ht := halive t List.mem_cons_self
      have hstop₁ := hstop t List.mem_cons_self
      have htouched := (handleSignal_touched hT ht hstop₁ hkill hk₁).2
      have hset : {t | k.Alive t} = {u | k₁.Alive u} := Set.ext fun u => htouched.alive.symm
      obtain ⟨L₁, hT₁, hP₁, -⟩ := hP.handleSignal hT ht hstop₁ hkill hk₁
      have hfirst := hone hP hT List.mem_cons_self ht hstop₁ hk₁
      refine htrans hfirst (ih (fun hP hT ht => hone hP hT (List.mem_cons_of_mem _ ht)) hP₁
        (hset ▸ hT₁) hnodup (fun u hu => ?_) (fun u hu hs => ?_) hrest)
      · exact htouched.alive.mpr (halive u (List.mem_cons_of_mem _ hu))
      · exact Threaded.stoppable_frame htouched (fun hut => htT (hut ▸ hu))
          (hstop u (List.mem_cons_of_mem _ hu) hs)

theorem removed {T : List Tid} (hP : Parked k L) (hrem : Removed A k L T k' L') :
    Parked k' L' where
  joining u hu v hv := by
    obtain ⟨hvT, hv⟩ := (hrem.mem v _).mp hv
    rw [hrem.threads v hvT]
    exact hP.joining u ((hrem.alive u).mp hu).2 v hv
  waiting u hu hw := by
    obtain ⟨huT, hu⟩ := (hrem.alive u).mp hu
    rw [hrem.threads u huT] at hw ⊢
    obtain ⟨hmem, hst⟩ := hP.waiting u hu hw
    exact ⟨(hrem.mem u _).mpr ⟨huT, hmem⟩, hst⟩

theorem zeroSlot (hP : Parked k L) (hT : Threaded k A L) (ht : ¬ k.Alive t) :
    Parked (k.setThread t fun _ => {}) L := by
  have hother : ∀ u, k.Alive u → (k.setThread t fun _ => {}).threads u = k.threads u :=
    fun u hu => by simp [Kernel.setThread, show u ≠ t from fun hut => ht (hut ▸ hu)]
  refine ⟨fun u hu v hv => ?_, fun u hu hw => ?_⟩
  · rw [hother v (hT.alive hv)]
    exact hP.joining u hu v hv
  · rw [hother u hu] at hw ⊢
    exact hP.waiting u hu hw

theorem create (hP : Parked k L) (hT : Threaded k {t | k.Alive t} L) (ht : ¬ k.Alive t)
    (halive : ∀ u, k'.Alive u ↔ u = t ∨ k.Alive u)
    (hthreads : ∀ u, u ≠ t → k'.threads u = k.threads u)
    (hsig : (k'.threads t).waitForSignal = false) : Parked k' (Queues.enqueue L t .sleep) where
  joining u hu v hv := by
    have hv : v ∈ L (.join u) := by rwa [enqueue_of_ne (by simp)] at hv
    rw [hthreads v fun hvt => ht (hvt ▸ hT.alive hv)]
    exact hP.joining u (hT.rings.inUse hv u rfl) v hv
  waiting u hu hw := by
    have hut : u ≠ t := by
      rintro rfl
      simp [hsig] at hw
    rw [hthreads u hut] at hw ⊢
    obtain ⟨hmem, hst⟩ := hP.waiting u (((halive u).mp hu).resolve_left hut) hw
    exact ⟨mem_enqueue.mpr (Or.inl hmem), hst⟩

end Parked

theorem waitForSignal_threadCreate {attr : ThreadAttr} {kernelThread stack : Bool}
    (hcreate : k.threadCreate attr kernelThread stack = (k', .ok t)) :
    (k'.threads t).waitForSignal = false := by
  simp only [threadCreate] at hcreate
  split at hcreate
  · cases hcreate
  · split at hcreate
    · cases hcreate
    · split at hcreate
      · simp only [Prod.mk.injEq, Except.ok.injEq] at hcreate
        obtain ⟨rfl, rfl⟩ := hcreate
        simp [setupThread, setThread]
      · cases hcreate

/-- Threads are created and none ends. -/
def Grows (L : SchedList → List Tid) (k k' : Kernel) : Prop :=
  KeepsJoins {t | k'.Alive t} L k' ∧ ∀ t, k.Alive t → k'.Alive t

namespace Parked

theorem threadCreate {attr : ThreadAttr} {kernelThread stack : Bool} {r : Except Errno Tid}
    (hP : Parked k L) (hT : Threaded k {t | k.Alive t} L)
    (hcreate : k.threadCreate attr kernelThread stack = (k', r)) : Grows L k k' := by
  obtain ⟨e, he⟩ | ⟨tid, hlt, hdead, he | ⟨k₁, he, hlinks, hthreads, hst, hbitmap, -, -, -,
      hrun⟩⟩ := threadCreate_cases k attr kernelThread stack
  · obtain ⟨rfl, -⟩ := Prod.mk.inj (he.symm.trans hcreate)
    exact ⟨⟨L, hT, hP, Stays.refl L⟩, fun _ => id⟩
  · obtain ⟨rfl, -⟩ := Prod.mk.inj (he.symm.trans hcreate)
    exact ⟨⟨L, hT.zeroSlot hdead, hP.zeroSlot hT hdead, Stays.refl L⟩, fun _ => id⟩
  · obtain ⟨rfl, rfl⟩ := Prod.mk.inj (he.symm.trans hcreate)
    have halive : ∀ u, k₁.Alive u ↔ u = tid ∨ k.Alive u := by
      intro u
      by_cases hut : u = tid
      · simp [Alive, hbitmap, hut]
      · simp [Alive, hbitmap, hut]
    have hset : insert tid {t | k.Alive t} = {t | k₁.Alive t} :=
      Set.ext fun u => (halive u).symm
    have hT₁ := hT.create hdead hdead hlt hlinks hthreads hst hbitmap hrun
    rw [hset] at hT₁
    exact ⟨⟨_, hT₁, hP.create hT hdead halive hthreads (waitForSignal_threadCreate hcreate),
      Stays.enqueue (by simp) (by simp)⟩, fun u hu => (halive u).mpr (Or.inr hu)⟩

theorem enterTask (hg : Grows L k k') (task : Pid) (l : List Tid) :
    Grows L k (k'.enterTask t task l) := by
  obtain ⟨⟨L', hT', hP', hL'⟩, halive⟩ := hg
  have hset : Parked (k'.setThread t fun i => { i with task := some task }) L' :=
    hP'.setThread fun _ => ⟨rfl, rfl, rfl⟩
  exact ⟨⟨L', hT'.enterTask, hset.frame (fun _ => id) (fun _ _ => ⟨rfl, fun _ _ => rfl⟩)
    fun _ => ⟨rfl, rfl⟩, hL'⟩, halive⟩

theorem taskCreate {priority : Int} {kernelThread stack : Bool} {r : Option Pid}
    (hP : Parked k L) (hT : Threaded k {t | k.Alive t} L)
    (hcreate : k.taskCreate priority kernelThread stack = (k', r)) : Grows L k k' := by
  obtain ⟨_, hk₁⟩ | ⟨k₁, tid, pid, hk₁, -, rfl⟩ := taskCreate_cases hcreate
  · exact hP.threadCreate hT hk₁
  · have hg := hP.threadCreate hT hk₁
    obtain ⟨⟨L', hT', hP', hL'⟩, halive⟩ := enterTask (t := tid) hg pid [tid]
    exact ⟨⟨L', hT'.of_status rfl rfl rfl fun _ => rfl,
      hP'.frame (fun _ => id) (fun _ _ => ⟨rfl, fun _ _ => rfl⟩) fun _ => ⟨rfl, rfl⟩, hL'⟩, halive⟩

theorem sysPthreadCreate {attr : Option ThreadAttr} {stack : Bool} {r : Except Errno Tid}
    (hP : Parked k L) (hT : Threaded k {t | k.Alive t} L)
    (hcreate : k.sysPthreadCreate attr stack = some (k', r)) : Grows L k k' := by
  obtain ⟨_, _, ⟨_, hk₁⟩ | ⟨k₁, tid, task, hk₁, -, rfl⟩⟩ := sysPthreadCreate_cases hcreate
  · exact hP.threadCreate hT hk₁
  · exact enterTask (hP.threadCreate hT hk₁) task _

end Parked

/-- What a step does to the threads that join others: the caller can become one, and the
others stay unless they end. Only a poll brings a thread to the poll list. -/
structure JoinStep (k : Kernel) (L : SchedList → List Tid) (e : KernelEvent) (k' : Kernel)
    (L' : SchedList → List Tid) : Prop where
  parked : Parked k' L'
  joins : ∀ t, k.Alive t → k'.Alive t → ∀ u, u ∈ L' (.join t) ↔
    (u ∈ L (.join t) ∧ k'.Alive u) ∨
      (e = .call (.pthreadJoin t) ∧ k.Joins t ∧ u = k.runningThread)
  polls : ∀ t ∈ L' .poll, t ∈ L .poll ∨
    ((∃ timeout, e = .call (.poll timeout)) ∧ t = k.runningThread)

/-- A step that ends threads is followed by one without their lists. -/
def JoinsAfter (A : Set Tid) (k : Kernel) (L : SchedList → List Tid) (e : KernelEvent)
    (k' : Kernel) : Prop :=
  ∃ L', Threaded k' A L' ∧ (∀ t, k'.Alive t → t ∈ A) ∧ JoinStep k L e k' L'

variable {e : KernelEvent}

theorem JoinsAfter.of_keeps (hT : Threaded k {t | k.Alive t} L)
    (hne : ∀ t, e = .call (.pthreadJoin t) → ¬ k.Joins t) (halive : ∀ t, k'.Alive t ↔ k.Alive t)
    (hk : KeepsJoins {t | k.Alive t} L k') : JoinsAfter {t | k.Alive t} k L e k' := by
  obtain ⟨L', hT', hP', hL'⟩ := hk
  refine ⟨L', hT', fun t => (halive t).mp, hP', fun t _ _ u => ?_,
    fun t ht => Or.inl (hL'.polls t ht)⟩
  rw [hL'.joins t]
  constructor
  · exact fun hu => Or.inl ⟨hu, (halive u).mpr (hT.alive hu)⟩
  · rintro (hu | ⟨he, hjoins, -⟩)
    · exact hu.1
    · exact absurd hjoins (hne t he)

theorem JoinsAfter.of_grows (hT : Threaded k {t | k.Alive t} L)
    (hne : ∀ t, e ≠ .call (.pthreadJoin t)) (hg : Grows L k k') :
    JoinsAfter {t | k'.Alive t} k L e k' := by
  obtain ⟨⟨L', hT', hP', hL'⟩, halive⟩ := hg
  refine ⟨L', hT', fun _ => id, hP', fun t _ _ u => ?_, fun t ht => Or.inl (hL'.polls t ht)⟩
  rw [hL'.joins t]
  constructor
  · exact fun hu => Or.inl ⟨hu, halive u (hT.alive hu)⟩
  · rintro (hu | ⟨he, -⟩)
    · exact hu.1
    · exact absurd he (hne t)

theorem JoinsAfter.of_removed {T : List Tid} (hT : Threaded k {t | k.Alive t} L)
    (hP : Parked k L) (hne : ∀ t, e ≠ .call (.pthreadJoin t))
    (hrem : Removed {t | k.Alive t} k L T k' L') : JoinsAfter {t | k.Alive t} k L e k' := by
  refine ⟨L', hrem.threaded, fun t ht => ((hrem.alive t).mp ht).2, hP.removed hrem,
    fun t _ _ u => ?_, fun t ht => Or.inl ((hrem.mem t _).mp ht).2⟩
  rw [hrem.mem]
  constructor
  · exact fun hu => Or.inl ⟨hu.2, (hrem.alive u).mpr ⟨hu.1, hT.alive hu.2⟩⟩
  · rintro (⟨hu, hu'⟩ | ⟨he, -⟩)
    · exact ⟨((hrem.alive u).mp hu').1, hu⟩
    · exact absurd he (hne t)

theorem Threaded.sysPoll (hT : Threaded k A L) (hst : k.Unqueued) (timeout : Int) :
    Threaded (k.sysPoll timeout) A (Queues.enqueue L k.runningThread .poll) := by
  have hqueued : Threaded (k.prepareToWait .poll k.runningThread .wait) A
      (Queues.enqueue L k.runningThread .poll) :=
    hT.prepareToWait poll_inUse hst (by simp) (by simp)
  rw [Kernel.sysPoll]
  split
  · exact (hqueued.setThread (t := k.runningThread) (f := fun i => { i with pollTimed := true })
      fun _ => rfl).of_status rfl rfl rfl fun _ => rfl
  · exact hqueued

namespace Parked

theorem not_waiting (hP : Parked k L) (hT : Threaded k A L)
    (hst : (k.threads t).status = .running) : (k.threads t).waitForSignal = false := by
  by_contra hw
  simpa [hst] using (hP.waiting t (hT.running t hst).2 (by simpa using hw)).2.1

theorem prepareToWait {f : ThreadInfo → ThreadInfo} (hP : Parked k L)
    (hT : Threaded k {t | k.Alive t} L) (hst : k.Unqueued) (hf : ∀ i, (f i).status = i.status)
    (hh : h ∈ inUse {t | k.Alive t}) (hjoin : ∀ t, h ≠ .join t)
    (hwait : (f (k.threads k.runningThread)).waitForSignal = true →
      h = .suspend ∧ (f (k.threads k.runningThread)).pollTimed = false) :
    Threaded ((k.setThread k.runningThread f).prepareToWait h k.runningThread .wait)
        {t | k.Alive t} (Queues.enqueue L k.runningThread h) ∧
      Parked ((k.setThread k.runningThread f).prepareToWait h k.runningThread .wait)
        (Queues.enqueue L k.runningThread h) := by
  have hst' : ((k.setThread k.runningThread f).threads k.runningThread).status = .running :=
    (Threaded.status_setThread hf k.runningThread).trans hst
  refine ⟨(hT.setThread hf).prepareToWait hh hst' (by simp) (hjoin _),
    hP.enqueue (hT.notMem_of_running hst) (fun _ => id) (fun u hu => ?_) (fun ⟨u, hu⟩ =>
      absurd hu (hjoin u)) (fun hw => ?_)⟩
  · simp [Kernel.prepareToWait, setStatus, Kernel.setThread, hu]
  · simp only [Kernel.prepareToWait, setStatus, Kernel.setThread, Function.update_self] at hw ⊢
    exact ⟨(hwait hw).1, trivial, (hwait hw).2⟩

theorem queueSelf {f : ThreadInfo → ThreadInfo} (hP : Parked k L)
    (hT : Threaded k {t | k.Alive t} L) (hst : k.Unqueued) (hf : ∀ i, (f i).status = i.status)
    (hh : h ∈ inUse {t | k.Alive t}) (hjoin : ∀ t, h ≠ .join t) (hpoll : h ≠ .poll)
    (hwait : (f (k.threads k.runningThread)).waitForSignal = true →
      h = .suspend ∧ (f (k.threads k.runningThread)).pollTimed = false) :
    KeepsJoins {t | k.Alive t} L
      ((k.setThread k.runningThread f).prepareToWait h k.runningThread .wait) := by
  obtain ⟨hT', hP'⟩ := hP.prepareToWait hT hst hf hh hjoin hwait
  exact ⟨_, hT', hP', Stays.enqueue hjoin hpoll⟩

theorem queue (hP : Parked k L) (hT : Threaded k {t | k.Alive t} L) (hst : k.Unqueued)
    (hh : h ∈ inUse {t | k.Alive t}) (hjoin : ∀ t, h ≠ .join t) (hpoll : h ≠ .poll) :
    KeepsJoins {t | k.Alive t} L (k.prepareToWait h k.runningThread .wait) := by
  have hself := hP.queueSelf (f := fun i => i) hT hst (fun _ => rfl) hh hjoin hpoll
    (by simp [hP.not_waiting hT hst])
  rwa [setThread_id] at hself

theorem setPoll {b : Bool} {l : List Tid} (hP : Parked k L) (hjoin : ∀ u, t ∉ L (.join u))
    (hsig : (k.threads t).waitForSignal = false) :
    Parked { k.setThread t fun i => { i with pollTimed := b } with timeoutList := l } L := by
  refine ⟨fun u hu v hv => ?_, fun u hu hw => ?_⟩
  · have hvt : v ≠ t := fun hvt => hjoin u (hvt ▸ hv)
    simpa [Kernel.setThread, hvt] using hP.joining u hu v hv
  · have hut : u ≠ t := by
      rintro rfl
      simp [Kernel.setThread, hsig] at hw
    simp only [Kernel.setThread, Function.update_of_ne hut] at hw ⊢
    exact hP.waiting u hu hw

theorem sysPoll {timeout : Int} (hP : Parked k L) (hT : Threaded k {t | k.Alive t} L)
    (hst : k.Unqueued) :
    JoinsAfter {t | k.Alive t} k L (.call (.poll timeout)) (k.sysPoll timeout) := by
  have hfree := hT.notMem_of_running hst
  have hsig := hP.not_waiting hT hst
  obtain ⟨-, hP'⟩ := hP.prepareToWait (f := fun i => i) hT hst (fun _ => rfl) poll_inUse
    (by simp) (by simp [hsig])
  rw [setThread_id] at hP'
  have hparked : Parked (k.sysPoll timeout) (Queues.enqueue L k.runningThread .poll) := by
    rw [Kernel.sysPoll]
    split
    · refine hP'.setPoll (fun u => ?_) ?_
      · rw [enqueue_of_ne (by simp)]
        exact hfree _
      · simpa [Kernel.prepareToWait, setStatus, Kernel.setThread] using hsig
    · exact hP'
  have halive : ∀ u, (k.sysPoll timeout).Alive u ↔ k.Alive u := fun u => by
    rw [Kernel.sysPoll]
    split <;> exact Iff.rfl
  refine ⟨_, hT.sysPoll hst timeout, fun u => (halive u).mp, hparked, fun t _ _ u => ?_,
    fun u hu => ?_⟩
  · rw [enqueue_of_ne (by simp)]
    constructor
    · exact fun hu => Or.inl ⟨hu, (halive u).mpr (hT.alive hu)⟩
    · rintro (hu | ⟨he, -⟩)
      · exact hu.1
      · cases he
  · obtain hu | ⟨rfl, -⟩ := mem_enqueue.mp hu
    · exact Or.inl hu
    · exact Or.inr ⟨⟨timeout, rfl⟩, rfl⟩

theorem sysPollRet (hP : Parked k L) (hT : Threaded k {t | k.Alive t} L) (hst : k.Unqueued) :
    KeepsJoins {t | k.Alive t} L k.sysPollRet :=
  ⟨L, (hT.setThread (t := k.runningThread) (f := fun i => { i with pollTimed := false })
      fun _ => rfl).of_status rfl rfl rfl fun _ => rfl,
    hP.setPoll (fun _ => hT.notMem_of_running hst _) (hP.not_waiting hT hst), Stays.refl L⟩

theorem keeps_setThread {f : ThreadInfo → ThreadInfo} (hP : Parked k L) (hT : Threaded k A L)
    (hf : ∀ i, (f i).status = i.status ∧ (f i).pollTimed = i.pollTimed ∧
      (f i).waitForSignal = i.waitForSignal) : KeepsJoins A L (k.setThread t f) :=
  ⟨L, hT.setThread fun i => (hf i).1, hP.setThread hf, Stays.refl L⟩

theorem taskletSchedule {tid : Tid} (hP : Parked k L) (hT : Threaded k {t | k.Alive t} L)
    (hR : Registered k) (hok : k.TaskletOk (.taskletSchedule tid))
    (hsched : k.taskletSchedule tid = some k') : KeepsJoins {t | k.Alive t} L k' := by
  obtain ⟨thread, hfound, rfl⟩ := Option.map_eq_some_iff.mp hsched
  obtain ⟨hmem, rfl⟩ := acquireThread_eq_some.mp hfound
  refine hP.finishWait hT (hR.threadsList.2 _ hmem) (fun u hu => ?_) hok.1
  have hin := hT.rings.inUse hu
  exact hok.2 u (hT.lt_max u (hin u rfl)) (hT.members_eq hin ▸ hu)

theorem sysPthreadJoin {tid : Tid} {r : SysResult} (hP : Parked k L)
    (hT : Threaded k {t | k.Alive t} L) (hR : Registered k) (hexec : k.Executing)
    (hok : k.CallOk (.pthreadJoin tid)) (hjoin : k.sysPthreadJoin tid = some r) :
    JoinsAfter {t | k.Alive t} k L (.call (.pthreadJoin tid)) r.1 := by
  obtain ⟨hnot, heq, -⟩ | ⟨hjoins, rfl⟩ := sysPthreadJoin_cases hjoin
  · rw [heq]
    exact JoinsAfter.of_keeps hT (by simpa using hnot) (fun _ => Iff.rfl)
      ⟨L, hT, hP, Stays.refl L⟩
  · obtain ⟨hst, hother⟩ := hok hjoins
    have halive := hR.threadsList.2 tid hjoins.1
    refine ⟨_, hT.prepareToWait (hR.join_inUse hjoins) hst (by simp) (by simpa using hother), fun _ => id,
      hP.enqueue (hT.notMem_of_running hst) (fun _ => id) (Touched.prepareToWait _ k _ _).threads
        (fun _ => ?_) ?_, fun t ht _ u => ?_, fun u hu => ?_⟩
    · simp [Kernel.prepareToWait, setStatus, Kernel.setThread, hexec.2, hP.not_waiting hT hst]
    · simp [Kernel.prepareToWait, setStatus, Kernel.setThread, hP.not_waiting hT hst]
    · rw [mem_enqueue]
      constructor
      · rintro (hu | ⟨rfl, heq⟩)
        · exact Or.inl ⟨hu, hT.alive hu⟩
        · obtain rfl : t = tid := by simpa using heq
          exact Or.inr ⟨rfl, hjoins, rfl⟩
      · rintro (⟨hu, -⟩ | ⟨heq, -, rfl⟩)
        · exact Or.inl hu
        · obtain rfl : tid = t := by simpa using heq
          exact Or.inr ⟨rfl, rfl⟩
    · rw [enqueue_of_ne (by simp)] at hu
      exact Or.inl hu

theorem threadJoinHandler (hP : Parked k L) (hT : Threaded k {t | k.Alive t} L)
    (hR : Registered k) (hexec : k.Executing) (hok : k.ThreadExitOk)
    (hne : ∀ t, e ≠ .call (.pthreadJoin t)) (hhandler : k.threadJoinHandler = some k') :
    JoinsAfter {t | k.Alive t} k L e k' := by
  have hst := hok.1
  obtain ⟨k₁, L', hW, -, hrem, hgone⟩ := hT.threadExit hR hexec hok hhandler
  have hothers : ∀ t, t ≠ k.runningThread → L' (.join t) = L (.join t) :=
    fun t ht => hW.others _ (by simpa using ht) (by simp)
  have hstays : ∀ g, g ≠ .join k.runningThread → (∀ p, g ≠ .ready p) → ∀ u ∈ L g,
      k₁.threads u = k.threads u := fun g hg => hW.stays g (by simpa using hg)
  refine ⟨L', hrem.threaded, fun t ht => ((hgone t).mp ht).2, ⟨fun t ht u hu => ?_,
    fun u hu hw => ?_⟩, fun t _ ht u => ?_, fun u hu => ?_⟩
  · obtain ⟨htr, ht⟩ := (hgone t).mp ht
    obtain ⟨hur, hu⟩ := (hrem.mem u _).mp hu
    rw [hothers t htr] at hu
    rw [hrem.threads u hur, hstays _ (by simpa using htr) (by simp) u hu]
    exact hP.joining t ht u hu
  · obtain ⟨hur, hu⟩ := (hgone u).mp hu
    rw [hrem.threads u (by simpa using hur), hW.info u] at hw
    obtain ⟨hmem, hst⟩ := hP.waiting u hu hw
    have hmem' : u ∈ L' .suspend := by
      rw [hW.others _ (by simp) (by simp)]
      exact hmem
    rw [hrem.threads u (by simpa using hur), hstays _ (by simp) (by simp) u hmem]
    exact ⟨hmem', hst⟩
  · obtain ⟨htr, -⟩ := (hgone t).mp ht
    rw [hothers t htr]
    have hfree := hT.notMem_of_running hst
    constructor
    · intro hu
      exact Or.inl ⟨hu, (hgone u).mpr ⟨fun hur => hfree _ (hur ▸ hu), hT.alive hu⟩⟩
    · rintro (hu | ⟨he, -⟩)
      · exact hu.1
      · exact absurd he (hne t)
  · rw [hW.others _ (by simp) (by simp)] at hu
    exact Or.inl hu

theorem sysExit (hP : Parked k L) (hT : Threaded k {t | k.Alive t} L) (hR : Registered k)
    (hok : k.ExitOk) (hne : ∀ t, e ≠ .call (.pthreadJoin t)) (hexit : k.sysExit = some k') :
    JoinsAfter {t | k.Alive t} k L e k' := by
  obtain ⟨task, L', -, hrem⟩ := hT.sysExit hR hok hexit
  exact JoinsAfter.of_removed hT hP hne hrem

theorem signalled {T : List Tid} {sig : Signal} (hP : Parked k L)
    (hT : Threaded k {t | k.Alive t} L) (hR : Registered k) (hnodup : T.Nodup)
    (halive : ∀ t ∈ T, k.Alive t) (hok : k.SignalOk T (some sig))
    (hne : ∀ t, e ≠ .call (.pthreadJoin t))
    (hsig : T.foldlM (fun k t => k.handleSignal t sig) k = some k') :
    JoinsAfter {t | k.Alive t} k L e k' := by
  by_cases hkill : sig = .kill
  · subst hkill
    obtain ⟨L', hrem⟩ := hT.kill hR hnodup halive hok hsig
    exact JoinsAfter.of_removed hT hP hne hrem
  · refine JoinsAfter.of_keeps hT (fun t h => absurd h (hne t))
      (fun t => (SameBooks.signal hkill hsig).alive_iff)
      (hP.signal hT hnodup halive (fun t ht hs => ?_) hkill hsig)
    subst hs
    exact hok t ht

theorem runCall {c : KernelCall} (hP : Parked k L) (hT : Threaded k {t | k.Alive t} L)
    (hR : Registered k) (hexec : k.Executing) (hok : k.CallOk c) (hcall : k.runCall c = some k') :
    ∃ A, JoinsAfter A k L (.call c) k' := by
  by_cases hjoins : ∃ tid, c = .pthreadJoin tid
  · obtain ⟨tid, rfl⟩ := hjoins
    obtain ⟨r, hr, rfl⟩ := Option.map_eq_some_iff.mp hcall
    exact ⟨_, hP.sysPthreadJoin hT hR hexec hok hr⟩
  have hne : ∀ t, KernelEvent.call c ≠ .call (.pthreadJoin t) := fun t h =>
    hjoins ⟨t, KernelEvent.call.inj h⟩
  have hkeeps : (∀ t, k'.Alive t ↔ k.Alive t) → KeepsJoins {t | k.Alive t} L k' →
      ∃ A, JoinsAfter A k L (.call c) k' := fun halive hk =>
    ⟨_, JoinsAfter.of_keeps hT (fun t h => absurd h (hne t)) halive hk⟩
  cases runCall_cases hT hR hok hcall with
  | same _ => exact hkeeps (fun _ => Iff.rfl) ⟨L, hT, hP, Stays.refl L⟩
  | queues _ _ _ hst hin _ _ hkind =>
      exact hkeeps (fun _ => Iff.rfl) (hP.queueSelf hT hst (fun _ => rfl) hin
        (fun t h => hjoins ⟨t, hkind.2 t h⟩) hkind.1 (by simp [hP.not_waiting hT hst]))
  | awaits set hst =>
      exact hkeeps (fun _ => Iff.rfl) (hP.queueSelf hT hst (fun _ => rfl) Threaded.suspend_inUse
        (by simp) (by simp) fun _ => ⟨rfl, hexec.2⟩)
  | polls timeout hst => exact ⟨_, hP.sysPoll hT hst⟩
  | detaches tid => exact hkeeps (fun _ => Iff.rfl) (hP.keeps_setThread hT fun _ => ⟨rfl, rfl, rfl⟩)
  | setsPriority tid schedPriority priority original =>
      exact hkeeps (fun _ => Iff.rfl) (hP.keeps_setThread hT fun _ => ⟨rfl, rfl, rfl⟩)
  | threadExits hends h => exact ⟨_, hP.threadJoinHandler hT hR hexec hends hne h⟩
  | exits hends h => exact ⟨_, hP.sysExit hT hR hends hne h⟩
  | cancels tid hreceives hkillable h =>
      obtain ⟨L', hrem⟩ := hT.deleteKillable hR (hR.threadsList.2 tid hreceives.1) hkillable h
      exact ⟨_, JoinsAfter.of_removed hT hP hne hrem⟩
  | signals tid s hreceives hsignal h =>
      have halive := hR.threadsList.2 tid hreceives.1
      exact ⟨_, hP.signalled hT hR (List.nodup_singleton tid) (by simpa using halive) hsignal hne
        (by simpa using h)⟩
  | kills pid s _ hsignal h =>
      obtain ⟨hnodup, hmem⟩ := hR.taskThreads pid
      exact ⟨_, hP.signalled hT hR hnodup (fun t ht => (hmem t ht).1) hsignal hne h⟩
  | raises task s _ hsignal h =>
      obtain ⟨hnodup, hmem⟩ := hR.taskThreads task
      exact ⟨_, hP.signalled hT hR hnodup (fun t ht => (hmem t ht).1) hsignal hne h⟩
  | creates attr stack h => exact ⟨_, JoinsAfter.of_grows hT hne (hP.sysPthreadCreate hT h)⟩
  | createsTask priority kernelThread stack =>
      exact ⟨_, JoinsAfter.of_grows hT hne (hP.taskCreate hT rfl)⟩

theorem joinsAfter (hP : Parked k L) (hT : Threaded k {t | k.Alive t} L) (hR : Registered k)
    (hok : k.EventOk e) (htasklet : k.TaskletOk e) (hstep : k.step e = some k') :
    ∃ A, JoinsAfter A k L e k' := by
  have hkeeps : (∀ t, e ≠ .call (.pthreadJoin t)) → (∀ t, k'.Alive t ↔ k.Alive t) →
      KeepsJoins {t | k.Alive t} L k' → ∃ A, JoinsAfter A k L e k' := fun hne halive hk =>
    ⟨_, JoinsAfter.of_keeps hT (fun t h => absurd h (hne t)) halive hk⟩
  cases step_cases hT hok hstep with
  | call hexec hcall h => exact hP.runCall hT hR hexec hcall h
  | pollRet hst => exact hkeeps (by simp) (fun _ => Iff.rfl) (hP.sysPollRet hT hst)
  | syscallHandler =>
      exact hkeeps (by simp) (fun _ => Iff.rfl) (hP.keeps_setThread hT fun _ => ⟨rfl, rfl, rfl⟩)
  | syscallReturn =>
      exact hkeeps (by simp) (fun _ => Iff.rfl) (hP.keeps_setThread hT fun _ => ⟨rfl, rfl, rfl⟩)
  | exits _ hends h => exact ⟨_, hP.sysExit hT hR hends (by simp) h⟩
  | threadExits hexec hends h => exact ⟨_, hP.threadJoinHandler hT hR hexec hends (by simp) h⟩
  | wakeUp _ hT₁ hW | wakeUpAll _ hT₁ hW | fifoWakeUp _ _ hT₁ hW | pollNotify _ hT₁ hW =>
      exact hkeeps (by simp) (fun t => by rw [Alive, hW.rest, Alive])
        ⟨_, hT₁, hP.wakes hW (by simp) (by simp)⟩
  | taskletSchedule tid =>
      exact hkeeps (by simp) (fun _ => (SameBooks.finishWait k tid).alive_iff)
        (hP.taskletSchedule hT hR htasklet hstep)
  | inheritPriority mutex hT' hraised =>
      exact hkeeps (by simp) (fun t => by rw [Alive, hraised.rest, Alive])
        ⟨_, hT', hP.raised hraised⟩
  | resetInheritedPriority =>
      refine hkeeps (by simp) (fun _ => Iff.rfl) (hP.keeps_setThread hT fun i => ?_)
      split <;> exact ⟨rfl, rfl, rfl⟩
  | systemTicks expired h =>
      exact hkeeps (by simp) (fun _ => (SameBooks.systemTicks h).alive_iff)
        (hP.systemTicks hT hR h)
  | schedule _ hT' hD =>
      exact hkeeps (by simp) (fun t => by rw [Alive, hD.rest, Alive]) ⟨_, hT', hP.dispatches hD⟩

theorem join_eq {B : Set Tid} (hT : Threaded k A L) (hT' : Threaded k B L') (hA : t ∈ A)
    (hB : t ∈ B) : L (.join t) = L' (.join t) := by
  have hin : ∀ {C : Set Tid}, t ∈ C → SchedList.join t ∈ inUse C := fun ht u hu => by
    obtain rfl : t = u := Option.some.inj hu
    exact ht
  exact (hT.members_eq (hin hA)).symm.trans (hT'.members_eq (hin hB))

theorem of_view {B : Set Tid} (hP : Parked k L) (hT : Threaded k A L) (hT' : Threaded k B L')
    (hA : ∀ t, k.Alive t → t ∈ A) (hB : ∀ t, k.Alive t → t ∈ B) : Parked k L' := by
  have hsuspend : L .suspend = L' .suspend :=
    (hT.members_eq Threaded.suspend_inUse).symm.trans (hT'.members_eq Threaded.suspend_inUse)
  refine ⟨fun t ht u hu => ?_, fun u hu hw => ?_⟩
  · rw [← join_eq hT hT' (hA t ht) (hB t ht)] at hu
    exact hP.joining t ht u hu
  · rw [← hsuspend]
    exact hP.waiting u hu hw

theorem step (hP : Parked k L) (hT : Threaded k {t | k.Alive t} L) (hR : Registered k)
    (hok : k.EventOk e) (htasklet : k.TaskletOk e) (hstep : k.step e = some k') :
    ∃ L', Threaded k' {t | k'.Alive t} L' ∧ Registered k' ∧ JoinStep k L e k' L' := by
  obtain ⟨L', hT', hR'⟩ := Consistent.step ⟨L, hT, hR⟩ hok hstep
  obtain ⟨A, L₁, hT₁, hA, hP₁, hjoins, hpolls⟩ := hP.joinsAfter hT hR hok htasklet hstep
  refine ⟨L', hT', hR', hP₁.of_view hT₁ hT' hA fun _ => id, fun t ht ht' u => ?_, fun t ht => ?_⟩
  · rw [join_eq hT' hT₁ ht' (hA t ht')]
    exact hjoins t ht ht' u
  · rw [← hT'.members_eq poll_inUse, hT₁.members_eq poll_inUse] at ht
    exact hpolls t ht

theorem kthreadCreate (hP : Parked k L) (priority : Int) (hT : Threaded k {t | k.Alive t} L) :
    ∃ L', Threaded (k.kthreadCreate priority) {t | (k.kthreadCreate priority).Alive t} L' ∧
      Parked (k.kthreadCreate priority) L' := by
  obtain ⟨⟨L', hT', hP', -⟩, -⟩ := hP.taskCreate (r := (k.taskCreate priority true true).2) hT rfl
  exact ⟨L', hT', hP'⟩

theorem dispatch (hP : Parked k L) (hT : Threaded k A L)
    (hsig : (k.threads t).waitForSignal = false) :
    Parked ({ k with runningThread := t, links := listDel k.links (Sum.inr t) }.setStatus t
      .running) (dequeue L t) where
  joining u hu v hv := by
    obtain ⟨hvt, hv⟩ := hT.rings.mem_dequeue.mp hv
    simpa [setStatus, Kernel.setThread, hvt] using hP.joining u hu v hv
  waiting u hu hw := by
    have hut : u ≠ t := by
      rintro rfl
      simp [setStatus, Kernel.setThread, hsig] at hw
    simp only [setStatus, Kernel.setThread, Function.update_of_ne hut] at hw ⊢
    obtain ⟨hmem, hst⟩ := hP.waiting u hu hw
    exact ⟨hT.rings.mem_dequeue.mpr ⟨hut, hmem⟩, hst⟩

end Parked

theorem parked_schedStart : ∃ L, Threaded schedStart {t | schedStart.Alive t} L ∧
    Registered schedStart ∧ Parked schedStart L := by
  obtain ⟨L, hT, hR⟩ := schedStart_spec
  obtain ⟨L₀, hT₀, -⟩ := booting_reset.inv
  have hP₀ : Parked reset L₀ := ⟨by simp [reset, Alive], by simp [reset, Alive]⟩
  obtain ⟨L₁, hT₁, hP₁⟩ := hP₀.kthreadCreate 0 hT₀
  obtain ⟨L₂, hT₂, hP₂⟩ := hP₁.kthreadCreate kthreadPriMax hT₁
  obtain ⟨L₃, hT₃, hP₃⟩ := hP₂.kthreadCreate (kthreadPriMax - 1) hT₂
  obtain ⟨L₄, hT₄, hP₄⟩ := hP₃.kthreadCreate (kthreadPriMax - 1) hT₃
  have hidle := ((((booting_reset.kthreadCreate 0).kthreadCreate kthreadPriMax).kthreadCreate
    (kthreadPriMax - 1)).kthreadCreate (kthreadPriMax - 1)).idle
  have hfacts : ∃ k, k = (((reset.kthreadCreate 0).kthreadCreate kthreadPriMax).kthreadCreate
      (kthreadPriMax - 1)).kthreadCreate (kthreadPriMax - 1) ∧ k.Alive 0 ∧
      (k.threads 0).waitForSignal = false := by
    refine ⟨_, rfl, ?_⟩
    simp only [Alive]
    decide +kernel
  obtain ⟨_, rfl, halive, hsig⟩ := hfacts
  obtain ⟨h, hmem⟩ := (hT₄.linked_iff 0).mpr ⟨halive, hidle 0⟩
  have hP : Parked schedStart (dequeue L₄ 0) := hP₄.dispatch hT₄ hsig
  exact ⟨L, hT, hR, hP.of_view (hT₄.dispatch hidle hmem) hT (fun _ => id) fun _ => id⟩

end Kernel

end Tenok
