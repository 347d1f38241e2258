import Mathlib.Algebra.Order.BigOperators.Group.List
import Mathlib.Algebra.Order.Group.Nat
import Mathlib.Data.List.TakeWhile
import Tenok.Kernel.Poll

/-!
What `poll_notify` does after any run: while no two threads on the poll list share a file,
each of them has a walk over its own files that leads back to its head.
-/
namespace Tenok
open Ring Queues

namespace PollSys

section Record
variable {s : Cells PollNode} {thread : Tid} {walk filps : List File} {stays : Bool}

/-- The walk that starts at the head of the thread, and the node that was added last. -/
structure Recorded (s : Cells PollNode) (thread : Tid) (walk : List File) (stays : Bool) :
    Prop where
  nodup : walk.Nodup
  last : prev s (.inl thread) = walk.getLast?.elim (.inl thread) .inr
  path : Path s (.inl thread) (walk.map .inr)
    (if stays then prev s (.inl thread) else .inl thread)

theorem recorded_nil (s : Cells PollNode) (thread : Tid) :
    Recorded (initListHead s (.inl thread)) thread [] false :=
  have hring := initListHead_isRing s (.inl thread : PollNode)
  ⟨List.nodup_nil, hring.segment.2, hring.segment.1⟩

theorem next_listAdd_file (s : Cells PollNode) (thread : Tid) (filp : File) (n : PollNode) :
    next (listAdd s (.inr filp) (.inl thread)) n =
      if n = prev s (.inl thread) then .inr filp
      else if n = .inr filp then .inl thread else next s n :=
  next_listAdd (family_cells Set.univ) trivial trivial trivial trivial (by simp)

namespace Recorded

theorem last_eq (h : Recorded s thread walk stays) : prev s (.inl thread) =
    ((.inl thread : PollNode) :: walk.map .inr).getLast (by simp) := by
  rw [h.last]
  cases walk using List.reverseRecOn with
  | nil => rfl
  | append_singleton l f => simp

theorem last_mem {front back : List File} {filp : File} (h : Recorded s thread walk stays)
    (hsplit : walk = front ++ filp :: back) :
    prev s (.inl thread) ∈ (Sum.inr filp :: back.map .inr : List PollNode) := by
  rw [h.last, hsplit, List.getLast?_append_cons, List.getLast?_eq_getLast_of_ne_nil (by simp)]
  exact List.mem_map_of_mem (f := Sum.inr) (List.getLast_mem (List.cons_ne_nil filp back))

theorem nodup_nodes (h : Recorded s thread walk stays) :
    ((.inl thread : PollNode) :: walk.map .inr).Nodup := by
  simpa using h.nodup.map Sum.inr_injective

theorem record (h : Recorded s thread walk stays) (filp : File) :
    Recorded (listAdd s (.inr filp) (.inl thread)) thread
      (walk.takeWhile (· ≠ filp) ++ [filp]) (decide (walk.getLast? = some filp)) := by
  have hnext := next_listAdd_file s thread filp
  have hprev : prev (listAdd s (.inr filp) (.inl thread)) (.inl thread : PollNode) = .inr filp := by
    rw [prev_listAdd (family_cells Set.univ) trivial trivial trivial trivial (by simp), if_pos rfl]
  have hlast : (Sum.inr filp = prev s (.inl thread)) ↔ walk.getLast? = some filp := by
    rw [h.last]
    cases walk.getLast? with
    | none => simp
    | some f => simp [eq_comm]
  refine ⟨?_, by rw [hprev]; simp, ?_⟩
  · refine List.nodup_append.mpr ⟨h.nodup.sublist (List.takeWhile_sublist _),
      List.nodup_singleton _, fun f hf g hg => ?_⟩
    rw [List.mem_singleton.mp hg]
    simpa using List.mem_takeWhile_imp hf
  · rw [List.map_append, List.map_singleton, path_append]
    constructor
    · by_cases hmem : filp ∈ walk
      · obtain ⟨front, back, hsplit, hnot⟩ := List.eq_append_cons_of_mem hmem
        have htake : walk.takeWhile (· ≠ filp) = front := by
          rw [hsplit, List.takeWhile_append_of_pos fun f hf => by
            simpa using fun hff : f = filp => hnot (hff ▸ hf)]
          simp
        have hpath := h.path
        have hnd := h.nodup_nodes
        rw [hsplit, List.map_append, List.map_cons] at hpath hnd
        rw [htake]
        refine (path_append.mp hpath).1.frame fun n hn => ?_
        have hback : ∀ m ∈ (Sum.inr filp : PollNode) :: back.map .inr, n ≠ m := by
          rw [← List.cons_append] at hnd
          exact fun m hm => (List.nodup_append.mp hnd).2.2 n hn m hm
        rw [hnext, if_neg (hback _ (h.last_mem hsplit)), if_neg (hback _ List.mem_cons_self)]
      · have htake : walk.takeWhile (· ≠ filp) = walk :=
          List.takeWhile_eq_self_iff.mpr fun f hf => by
            simpa using fun hff : f = filp => hmem (hff ▸ hf)
        rw [htake]
        refine h.path.redirect h.nodup_nodes (fun n hn hne => ?_) ?_
        · rw [← h.last_eq] at hne
          rw [hnext, if_neg hne, if_neg]
          rintro rfl
          exact hmem (by simpa using hn)
        · rw [← h.last_eq, hnext, if_pos rfl]
    · change next _ _ = _
      rw [hnext, hprev]
      by_cases hl : walk.getLast? = some filp
      · simp [hlast.mpr hl, hl]
      · simp [mt hlast.mp hl, hl]

end Recorded

theorem walkOf_append (filps : List File) (filp : File) : walkOf (filps ++ [filp]) =
    ((walkOf filps).1.takeWhile (· ≠ filp) ++ [filp],
      decide ((walkOf filps).1.getLast? = some filp)) := by
  rw [walkOf, List.foldl_append]
  rfl

theorem recordFiles_append (s : Cells PollNode) (thread : Tid) (filps : List File) (filp : File) :
    recordFiles s thread (filps ++ [filp]) =
      listAdd (recordFiles s thread filps) (.inr filp) (.inl thread) := by
  rw [recordFiles, List.foldl_append]
  rfl

theorem recorded_recordFiles (s : Cells PollNode) (thread : Tid) (filps : List File) :
    Recorded (recordFiles (initListHead s (.inl thread)) thread filps) thread
        (walkOf filps).1 (walkOf filps).2 ∧
      (∀ f ∈ (walkOf filps).1, f ∈ filps) ∧
      ∀ n, n ≠ .inl thread → (∀ f ∈ filps, n ≠ .inr f) →
        next (recordFiles (initListHead s (.inl thread)) thread filps) n = next s n := by
  induction filps using List.reverseRecOn with
  | nil =>
      refine ⟨recorded_nil s thread, by simp [walkOf], fun n hn _ => ?_⟩
      exact Function.update_of_ne hn ..
  | append_singleton filps filp ih =>
      obtain ⟨hrec, hsub, hframe⟩ := ih
      rw [recordFiles_append, walkOf_append]
      refine ⟨hrec.record filp, fun f hf => ?_, fun n hn hfiles => ?_⟩
      · simp only [List.mem_append] at hf ⊢
        exact hf.imp_left fun hf => hsub f (List.takeWhile_subset _ hf)
      · have hfilps : ∀ f ∈ filps, n ≠ .inr f := fun f hf =>
          hfiles f (List.mem_append_left _ hf)
        rw [next_listAdd_file, if_neg, if_neg (hfiles filp (by simp))]
        · exact hframe n hn hfilps
        · rw [hrec.last]
          cases hl : (walkOf filps).1.getLast? with
          | none => exact hn
          | some f => exact hfilps f (hsub f (List.mem_of_getLast? hl))

end Record

variable {p p' : PollSys} {e : PollEvent} {l l' : List Tid} {L L' : SchedList → List Tid}

def Polls (p : PollSys) (file : File) (t : Tid) : Prop := file ∈ (p.polled t).getD []

instance decidablePolls (p : PollSys) (file : File) (t : Tid) : Decidable (p.Polls file t) :=
  inferInstanceAs (Decidable (_ ∈ _))

/-- The threads of `l` are inside `sys_poll`, each with a walk over its own files. -/
structure Walks (p : PollSys) (l : List Tid) : Prop where
  walk : ∀ t ∈ l, ∃ walk : List File, walk.Nodup ∧ (∀ f, f ∈ walk ↔ p.Polls f t) ∧
    Path p.files (.inl t) (walk.map .inr) (.inl t)
  inPoll : ∀ t ∈ l, (p.polled t).isSome
  apart : ∀ t ∈ l, ∀ u ∈ l, t ≠ u → ∀ f, p.Polls f t → ¬ p.Polls f u

theorem Walks.frame (h : Walks p l) (hl : ∀ t ∈ l', t ∈ l)
    (hpolled : ∀ t ∈ l', p'.polled t = p.polled t)
    (hheads : ∀ t ∈ l', next p'.files (.inl t) = next p.files (.inl t))
    (hfiles : ∀ t ∈ l', ∀ f, p.Polls f t → next p'.files (.inr f) = next p.files (.inr f)) :
    Walks p' l' := by
  have hpolls : ∀ t ∈ l', ∀ f, p'.Polls f t ↔ p.Polls f t := fun t ht f => by
    rw [Polls, hpolled t ht, Polls]
  refine ⟨fun t ht => ?_, fun t ht => ?_, fun t ht u hu htu f hf => ?_⟩
  · obtain ⟨walk, hnd, hmem, hpath⟩ := h.walk t (hl t ht)
    refine ⟨walk, hnd, fun f => (hmem f).trans (hpolls t ht f).symm, hpath.frame fun n hn => ?_⟩
    obtain rfl | hn := List.mem_cons.mp hn
    · exact hheads t ht
    · obtain ⟨f, hf, rfl⟩ := List.mem_map.mp hn
      exact hfiles t ht f ((hmem f).mp hf)
  · rw [hpolled t ht]
    exact h.inPoll t (hl t ht)
  · rw [hpolls u hu f]
    exact h.apart t (hl t ht) u (hl u hu) htu f ((hpolls t ht f).mp hf)

structure Inv (p : PollSys) (L : SchedList → List Tid) : Prop where
  threaded : Kernel.Threaded p.kernel {t | p.kernel.Alive t} L
  registered : Kernel.Registered p.kernel
  parked : Kernel.Parked p.kernel L
  walks : Walks p (L .poll)

namespace Inv

theorem members_poll (h : Inv p L) : p.kernel.members .poll = L .poll :=
  h.threaded.members_eq Kernel.poll_inUse

theorem notMem_poll (h : Inv p L) (hcaller : ¬ p.InPoll) : p.kernel.runningThread ∉ L .poll :=
  fun hmem => hcaller (h.walks.inPoll _ hmem)

end Inv

/-- The inner loop of `poll_notify` wakes its thread once, if the file is on the walk. -/
theorem forEach_notify {walk : List File} (hnd : walk.Nodup) (file : File) (t : Tid) (k : Kernel) :
    forEach (fun k pos => (.inl (if pos = .inr file then k.finishWait t else k) : Kernel ⊕ Unit)) k
      (walk.map (Sum.inr : File → PollNode)) =
        .inl (if file ∈ walk then k.finishWait t else k) := by
  induction walk generalizing k with
  | nil => rfl
  | cons f walk ih =>
      obtain ⟨hf, hnd⟩ := List.nodup_cons.mp hnd
      rw [List.map_cons, forEach]
      refine (ih hnd _).trans ?_
      by_cases hff : f = file
      · subst hff
        simp [hf]
      · simp [hff, Ne.symm hff]

theorem notifyThread_eq {walk : List File} {t : Tid} {fuel : Nat}
    (hnd : walk.Nodup) (hmem : ∀ f, f ∈ walk ↔ p.Polls f t)
    (hpath : Path p.files (.inl t) (walk.map .inr) (.inl t)) (hfuel : walk.length < fuel)
    (file : File) (k : Kernel) :
    p.notifyThread fuel file k t = some (if p.Polls file t then k.finishWait t else k) := by
  let body : Kernel → PollNode → Kernel ⊕ Unit := fun k pos =>
    .inl (if pos = .inr file then k.finishWait t else k)
  have hloop : listForEach (fun _ : Kernel => p.files) (.inl t) body fuel k
      (next p.files (.inl t)) = some (forEach body k (walk.map .inr)) :=
    listForEach_eq (fun _ _ _ _ => rfl) fuel k hpath (by simp) (by simpa using hfuel)
  rw [notifyThread, hloop, forEach_notify hnd]
  simp only [hmem, Option.bind_some, Sum.getLeft?_inl]

/-- What `poll_notify` is for. -/
structure Notifies (p : PollSys) (file : File) (p' : PollSys) : Prop where
  ready : ∀ t ∈ p.kernel.members .poll, p.Polls file t →
    (p'.kernel.threads t).status = .ready ∧ ∃ q, t ∈ p'.kernel.members (.ready q)
  others : ∀ t, ¬ (t ∈ p.kernel.members .poll ∧ p.Polls file t) →
    p'.kernel.threads t = p.kernel.threads t
  pollList : p'.kernel.members .poll =
    (p.kernel.members .poll).filter fun t => decide (¬ p.Polls file t)

/-- The call ends, and wakes those that wait for the file. -/
def NotifyWorks (p : PollSys) (file : File) : Prop :=
  ∃ p', (∃ n, ∀ fuel, n ≤ fuel → p.pollNotify fuel file = some p') ∧ p.Notifies file p'

theorem Inv.pollNotify (h : Inv p L) (hcaller : ¬ p.InPoll) (file : File) :
    ∃ n k' L', (∀ fuel, n ≤ fuel → p.pollNotify fuel file = some { p with kernel := k' }) ∧
      Inv { p with kernel := k' } L' ∧ p.Notifies file { p with kernel := k' } ∧
      k'.timeoutList = p.kernel.timeoutList := by
  have hwalks : ∃ n, ∀ fuel, n ≤ fuel → ∀ t ∈ L .poll, ∀ k,
      p.notifyThread fuel file k t = some (if p.Polls file t then k.finishWait t else k) := by
    choose! walk hnd hmem hpath using h.walks.walk
    refine ⟨((L .poll).map fun t => (walk t).length).sum + 1, fun fuel hfuel t ht k => ?_⟩
    have hle : (walk t).length ≤ ((L .poll).map fun t => (walk t).length).sum :=
      List.le_sum_of_mem (List.mem_map_of_mem ht)
    exact notifyThread_eq (hnd t ht) (hmem t ht) (hpath t ht) (by omega) file k
  obtain ⟨n, hwalks⟩ := hwalks
  have hloop := fun fuel (hfuel : n ≤ fuel) => h.threaded.wakeLoopM (h := .poll)
    (p.notifyThread fuel file) (fun t => decide (p.Polls file t)) Kernel.poll_inUse (by simp)
    fun k' L' hW t ht => by
      have hrun : t ≠ k'.runningThread := by
        rintro rfl
        exact h.notMem_poll hcaller (hW.runningThread ▸ ht)
      simp [hwalks fuel hfuel t ht k', Kernel.finishWait, hrun]
  obtain ⟨k', L', -, hT', hW, hfilter, hready, hsame, -, hfold⟩ := hloop n le_rfl
  have halive : {t | p.kernel.Alive t} = {t | k'.Alive t} :=
    Set.ext fun t => by
      rw [Set.mem_ofPred_eq, Set.mem_ofPred_eq, Kernel.Alive, Kernel.Alive, hW.rest]
  have hpoll' := hT'.members_eq Kernel.poll_inUse
  refine ⟨n, k', L', fun fuel hfuel => ?_, ⟨halive ▸ hT', hW.registered h.registered,
    (h.parked.wakes hW (by simp) (by simp)).1, ?_⟩, ⟨?_, ?_, ?_⟩, by rw [hW.rest]⟩
  · obtain ⟨k₂, -, hk₂, -, -, -, -, -, -, hfold₂⟩ := hloop fuel hfuel
    rw [PollSys.pollNotify, hk₂, hfold₂, ← hfold]
    rfl
  · exact h.walks.frame (hW.leaves _ (by simp)) (fun _ _ => rfl) (fun _ _ => rfl) fun _ _ _ _ => rfl
  · intro t ht hpolls
    obtain ⟨hst, q, hq⟩ := hready t (h.members_poll ▸ ht) (by simpa using hpolls)
    exact ⟨hst, q, (hT'.members_eq (Kernel.Threaded.ready_inUse q)).symm ▸ hq⟩
  · intro t ht
    exact hsame t (by simpa [h.members_poll] using ht)
  · rw [hpoll', hfilter, h.members_poll]
    simp

theorem pollNotify_mono {file : File} {n m : Nat} (hnm : n ≤ m)
    (h : p.pollNotify n file = some p') : p.pollNotify m file = some p' := by
  obtain ⟨k', hk', rfl⟩ := Option.map_eq_some_iff.mp h
  have hloop : p.kernel.forEachSafeM .poll (p.notifyThread m file) = some k' := by
    rw [Kernel.forEachSafeM] at hk' ⊢
    refine listForEachSafe_mono (fun k pos k₁ hk₁ => ?_) hk'
    obtain ⟨t, ht, hk₁⟩ := Option.bind_eq_some_iff.mp hk₁
    obtain ⟨r, hr, hk₁⟩ := Option.bind_eq_some_iff.mp hk₁
    rw [ht, Option.bind_some, notifyThread, listForEach_mono hnm hr, Option.bind_some, hk₁]
  rw [PollSys.pollNotify, hloop, Option.map_some]

theorem sysPoll_cases {fds : List PollFd} {timeout : Int} {r : PollSys × Option Int × List PollFd}
    (h : p.sysPoll fds timeout = some r) :
    r.1 = { p with files := initListHead p.files (.inl p.kernel.runningThread) } ∨
      ∃ filps ∈ p.blocksOn fds timeout, r.1 = { p with
        kernel := p.kernel.sysPoll timeout
        files := recordFiles (initListHead p.files (.inl p.kernel.runningThread))
          p.kernel.runningThread filps
        polled := Function.update p.polled p.kernel.runningThread (some filps) } := by
  obtain ⟨filps, hfilps, h⟩ := Option.bind_eq_some_iff.mp h
  have hfilps' : p.filps fds = some filps := hfilps
  dsimp only at h
  split at h
  · obtain rfl := Option.some.inj h
    exact Or.inl rfl
  · next hevent =>
      split at h
      · obtain rfl := Option.some.inj h
        exact Or.inl rfl
      · next htimeout =>
          obtain rfl := Option.some.inj h
          have hnone : p.noEvent fds filps = true := by
            by_contra hsome
            exact hevent (Bool.not_eq_true' _ ▸ Bool.not_eq_true _ ▸ hsome)
          exact Or.inr ⟨filps, by simp [blocksOn, hfilps', hnone, htimeout], rfl⟩

theorem next_initListHead {s : Cells PollNode} {thread : Tid} {n : PollNode}
    (hn : n ≠ .inl thread) : next (initListHead s (.inl thread : PollNode)) n = next s n :=
  Function.update_of_ne hn ..

theorem next_initHeads (s : Cells PollNode) (k k' : Kernel) {n : PollNode}
    (hn : ∀ t, n = .inl t → k.Alive t) : next (initHeads s k k') n = next s n := by
  rw [initHeads]
  induction List.range threadMax generalizing s with
  | nil => rfl
  | cons t l ih =>
      rw [List.foldl_cons, ih]
      split
      · next hnew =>
          refine next_initListHead fun hnt => ?_
          have halive : k.bitmapThreads t = true := hn t hnt
          simp [halive] at hnew
      · rfl

theorem Walks.initListHead (h : Walks p l) (hl' : ∀ t ∈ l', t ∈ l)
    (hcaller : p.kernel.runningThread ∉ l)
    (hfiles : p'.files = Tenok.initListHead p.files (.inl p.kernel.runningThread))
    (hpolled : ∀ t, t ≠ p.kernel.runningThread → p'.polled t = p.polled t) : Walks p' l' := by
  have hne : ∀ t ∈ l', t ≠ p.kernel.runningThread := fun t ht htr => hcaller (htr ▸ hl' t ht)
  refine h.frame hl' (fun t ht => hpolled t (hne t ht)) (fun t ht => ?_) fun t ht f hf => ?_
  · rw [hfiles]
    exact next_initListHead (by simpa using hne t ht)
  · rw [hfiles]
    exact next_initListHead (by simp)

theorem Walks.block {filps : List File} (h : Walks p l)
    (hl' : ∀ t ∈ l', t ∈ l ∨ t = p.kernel.runningThread)
    (hcaller : p.kernel.runningThread ∉ l)
    (hwalk : (walkOf filps).2 = false ∧ ∀ f ∈ filps, f ∈ (walkOf filps).1)
    (hapart : ∀ t ∈ l, ∀ f, p.Polls f t → f ∉ filps)
    (hfiles : p'.files = recordFiles (Tenok.initListHead p.files (.inl p.kernel.runningThread))
      p.kernel.runningThread filps)
    (hpolled : p'.polled = Function.update p.polled p.kernel.runningThread (some filps)) :
    Walks p' l' := by
  obtain ⟨hrec, hsub, hframe⟩ :=
    recorded_recordFiles p.files p.kernel.runningThread filps
  have hself : ∀ f, p'.Polls f p.kernel.runningThread ↔ f ∈ filps := fun f => by
    simp [Polls, hpolled]
  have hne : ∀ t ∈ l, t ≠ p.kernel.runningThread := fun t ht htr => hcaller (htr ▸ ht)
  have hother : Walks p' l := by
    refine h.frame (fun _ => id) (fun t ht => ?_) (fun t ht => ?_) fun t ht f hf => ?_
    · rw [hpolled, Function.update_of_ne (hne t ht)]
    · rw [hfiles]
      exact hframe _ (by simpa using hne t ht) (by simp)
    · rw [hfiles]
      refine hframe _ (by simp) fun g hg hfg => hapart t ht f hf ?_
      rwa [Sum.inr.inj hfg]
  have hpolls : ∀ t ∈ l, ∀ f, p'.Polls f t → f ∉ filps := fun t ht f hf => by
    rw [Polls, hpolled, Function.update_of_ne (hne t ht)] at hf
    exact hapart t ht f hf
  refine ⟨fun t ht => ?_, fun t ht => ?_, fun t ht u hu htu f hf => ?_⟩
  · obtain ht | rfl := hl' t ht
    · exact hother.walk t ht
    · refine ⟨(walkOf filps).1, hrec.nodup, fun f => ?_, ?_⟩
      · rw [hself]
        exact ⟨hsub f, hwalk.2 f⟩
      · simpa [hfiles, hwalk.1] using hrec.path
  · obtain ht | rfl := hl' t ht
    · exact hother.inPoll t ht
    · simp [hpolled]
  · obtain ht | rfl := hl' t ht
    · obtain hu | rfl := hl' u hu
      · exact hother.apart t ht u hu htu f hf
      · rw [hself]
        exact hpolls t ht f hf
    · obtain hu | rfl := hl' u hu
      · exact fun hfu => hpolls u hu f hfu ((hself f).mp hf)
      · exact absurd rfl htu

namespace Inv

theorem kernel {k : Kernel} {ke : KernelEvent} (h : Inv p L)
    (hok : p.kernel.EventOk ke ∧ p.kernel.TaskletOk ke) (hstep : p.kernel.step ke = some k) :
    ∃ L', Kernel.Threaded k {t | k.Alive t} L' ∧ Kernel.Registered k ∧ Kernel.Parked k L' ∧
      ∀ t ∈ L' .poll, t ∈ L .poll ∨
        ((∃ timeout, ke = .call (.poll timeout)) ∧ t = p.kernel.runningThread) := by
  obtain ⟨L', hT', hR', hjoins⟩ := h.parked.step h.threaded h.registered hok.1 hok.2 hstep
  exact ⟨L', hT', hR', hjoins.parked, hjoins.polls⟩

theorem sysPoll {fds : List PollFd} {timeout : Int} {r : PollSys × Option Int × List PollFd}
    (h : Inv p L) (hcall : p.kernel.InCall) (hcaller : ¬ p.InPoll)
    (hok : p.EventOk (.poll fds timeout)) (hpoll : p.sysPoll fds timeout = some r) :
    ∃ L', Inv r.1 L' := by
  have hnot := h.notMem_poll hcaller
  obtain heq | ⟨filps, hblocks, heq⟩ := sysPoll_cases hpoll
  · rw [heq]
    exact ⟨L, h.threaded, h.registered, h.parked,
      h.walks.initListHead (fun _ => id) hnot rfl fun _ _ => rfl⟩
  · obtain ⟨hst, hwalk, hapart⟩ := hok filps hblocks
    have hstep : p.kernel.step (.call (.poll timeout)) = some (p.kernel.sysPoll timeout) :=
      if_pos hcall
    have hok' : p.kernel.EventOk (.call (.poll timeout)) ∧
        p.kernel.TaskletOk (.call (.poll timeout)) := ⟨hst, trivial⟩
    obtain ⟨L', hT', hR', hP', hpolls⟩ := h.kernel hok' hstep
    rw [heq]
    refine ⟨L', hT', hR', hP', h.walks.block (fun t ht => (hpolls t ht).imp_right And.right) hnot
      hwalk (fun t ht f hf => hapart t (h.members_poll ▸ ht) f hf) rfl rfl⟩

theorem sysPollRet (h : Inv p L)
    (hst : (p.kernel.threads p.kernel.runningThread).status = .running) :
    ∃ L', Inv p.sysPollRet L' := by
  have hnot := h.threaded.notMem_of_running hst .poll
  have hpolled : ∀ t, t ≠ p.kernel.runningThread → p.sysPollRet.polled t = p.polled t :=
    fun t ht => Function.update_of_ne ht ..
  by_cases htimed : (p.kernel.threads p.kernel.runningThread).pollTimed = true
  · have hstep : p.kernel.step .pollRet = some p.kernel.sysPollRet := if_pos ⟨hst, htimed⟩
    have hok : p.kernel.EventOk .pollRet ∧ p.kernel.TaskletOk .pollRet := ⟨trivial, trivial⟩
    obtain ⟨L', hT', hR', hP', hpolls⟩ := h.kernel hok hstep
    have hkernel : p.sysPollRet.kernel = p.kernel.sysPollRet := if_pos htimed
    have hsub : ∀ t ∈ L' .poll, t ∈ L .poll := fun t ht => by simpa using hpolls t ht
    exact ⟨L', hkernel ▸ hT', hkernel ▸ hR', hkernel ▸ hP',
      h.walks.initListHead hsub hnot rfl hpolled⟩
  · have hkernel : p.sysPollRet.kernel = p.kernel := if_neg htimed
    exact ⟨L, hkernel ▸ h.threaded, hkernel ▸ h.registered, hkernel ▸ h.parked,
      h.walks.initListHead (fun _ => id) hnot rfl hpolled⟩

theorem setEvents {fEvents : File → Word} (h : Inv p L) : Inv { p with fEvents } L :=
  ⟨h.threaded, h.registered, h.parked, h.walks.frame (fun _ => id) (fun _ _ => rfl) (fun _ _ => rfl)
    fun _ _ _ _ => rfl⟩

theorem fifoEvents {filp : File} {flag : Word} {ready : Bool} {fuel : Nat} (h : Inv p L)
    (hcaller : ¬ p.InPoll) (hfifo : p.fifoEvents filp flag ready fuel = some p') :
    ∃ L', Inv p' L' := by
  rw [PollSys.fifoEvents] at hfifo
  split at hfifo
  · have hset : Inv { p with
        fEvents := Function.update p.fEvents filp (p.fEvents filp ||| flag) } L := h.setEvents
    obtain ⟨n, k', L', hnotify, hinv, -⟩ := hset.pollNotify hcaller filp
    have heq := (pollNotify_mono (le_max_right n fuel) hfifo).symm.trans
      (hnotify _ (le_max_left n fuel))
    obtain rfl := Option.some.inj heq
    exact ⟨L', hinv⟩
  · obtain rfl := Option.some.inj hfifo
    exact ⟨L, h.setEvents⟩

theorem runKernel {k : Kernel} {ke : KernelEvent} (h : Inv p L) (hfiles : ke.hasFiles = false)
    (hok : p.kernel.EventOk ke ∧ p.kernel.TaskletOk ke) (hstep : p.kernel.step ke = some k) :
    ∃ L', Inv (p.runKernel k) L' := by
  obtain ⟨L', hT', hR', hP', hpolls⟩ := h.kernel hok hstep
  have hsub : ∀ t ∈ L' .poll, t ∈ L .poll := fun t ht => by
    refine (hpolls t ht).resolve_right ?_
    rintro ⟨⟨timeout, rfl⟩, -⟩
    cases hfiles
  refine ⟨L', hT', hR', hP', h.walks.frame hsub (fun t ht => if_pos (hT'.alive ht))
    (fun t ht => next_initHeads _ _ _ fun u hu => ?_) fun t ht f hf =>
      next_initHeads _ _ _ (by simp)⟩
  obtain rfl := Sum.inl.inj hu
  exact h.threaded.alive (hsub t ht)

theorem step (h : Inv p L) (hok : p.EventOk e) (hstep : p.step e = some p') :
    ∃ L', Inv p' L' := by
  cases e with
  | poll fds timeout =>
      obtain ⟨⟨hcall, hcaller⟩, hstep⟩ := Option.ite_none_right_eq_some.mp hstep
      obtain ⟨r, hr, rfl⟩ := Option.map_eq_some_iff.mp hstep
      exact h.sysPoll hcall hcaller hok hr
  | pollRet =>
      obtain ⟨⟨hst, -⟩, hstep⟩ := Option.ite_none_right_eq_some.mp hstep
      obtain rfl := Option.some.inj hstep
      exact h.sysPollRet hst
  | fifoEvents filp flag ready fuel =>
      obtain ⟨hcaller, hstep⟩ := Option.ite_none_left_eq_some.mp hstep
      exact h.fifoEvents hcaller hstep
  | initFile filp =>
      obtain rfl := Option.some.inj hstep
      exact ⟨L, h.setEvents⟩
  | setFd fd filp =>
      obtain rfl := Option.some.inj hstep
      exact ⟨L, h.threaded, h.registered, h.parked, h.walks.frame (fun _ => id) (fun _ _ => rfl)
        (fun _ _ => rfl) fun _ _ _ _ => rfl⟩
  | kernel ke =>
      obtain ⟨hguard, hstep⟩ := Option.ite_none_left_eq_some.mp hstep
      obtain ⟨k, hk, rfl⟩ := Option.map_eq_some_iff.mp hstep
      exact h.runKernel (by simpa using fun h => hguard (Or.inl h)) hok hk

end Inv

theorem inv_start (files : Cells PollNode) (fEvents : File → Word)
    (fdtable : Int → Option File) : ∃ L, Inv (start files fEvents fdtable) L := by
  obtain ⟨L, hT, hR, hP⟩ := Kernel.parked_schedStart
  have hempty : Kernel.schedStart.members .poll = [] := by decide +kernel
  rw [hT.members_eq Kernel.poll_inUse] at hempty
  exact ⟨L, hT, hR, hP, by simp [hempty], by simp [hempty], by simp [hempty]⟩

/-- After any run whose steps meet the condition, a `poll_notify` of a thread that is not
itself in `sys_poll` ends and wakes exactly the threads that wait for the file. -/
theorem notifyWorks_of_allOk {files : Cells PollNode} {fEvents : File → Word}
    {fdtable : Int → Option File} {es : List PollEvent}
    (hok : Runs.AllOk EventOk step (start files fEvents fdtable) es)
    (hrun : Runs.exec step (start files fEvents fdtable) es = some p) (hcaller : ¬ p.InPoll)
    (file : File) : p.NotifyWorks file := by
  have hkeeps : ∀ p e p', (∃ L, Inv p L) → p.EventOk e → p.step e = some p' → ∃ L, Inv p' L :=
    fun _ _ _ ⟨_, h⟩ hok hstep => h.step hok hstep
  obtain ⟨L, hinv⟩ := Runs.exec_invariant hkeeps (inv_start files fEvents fdtable) hok hrun
  obtain ⟨n, k', -, hnotify, -, hworks, -⟩ := hinv.pollNotify hcaller file
  exact ⟨_, ⟨n, hnotify⟩, hworks⟩

def oneFile (filp : File) : PollSys := start ⟨id, id⟩ (fun _ => 0#32) fun _ => some filp

/-- A call with no timeout, and the thread that runs next. -/
def pollCall (fds : List PollFd) : List PollEvent :=
  [.kernel .syscallHandler, .poll fds (-1), .kernel .schedule]

/-- The main thread of a task creates a thread. -/
def threadsRun : List PollEvent :=
  Kernel.bootRun.map .kernel ++ [.kernel .syscallHandler,
    .kernel (.call (.pthreadCreate none true)), .kernel .syscallReturn]

def pollRun : List PollEvent :=
  threadsRun ++ pollCall [{ fd := fileReservedNum, events := 1#16 }]

def pollFiles (filps : List Nat) : List PollEvent :=
  pollCall (filps.map fun filp => { fd := fileReservedNum + filp, events := 1#16 })

/-- Two threads that poll two files each. -/
theorem notifyWorks_of_allOk_two : ∃ p,
    Runs.exec step (start ⟨id, id⟩ (fun _ => 0#32) fun fd => some fd.toNat)
        (threadsRun ++ pollFiles [0, 1] ++ pollFiles [2, 3]) = some p ∧
      p.kernel.members .poll = [5, 4] ∧ p.polled 5 = some [0, 1] ∧ p.polled 4 = some [2, 3] ∧
      p.NotifyWorks 1 ∧ p.NotifyWorks 2 := by
  have hrun : (Runs.exec step (start ⟨id, id⟩ (fun _ => 0#32) fun fd => some fd.toNat)
      (threadsRun ++ pollFiles [0, 1] ++ pollFiles [2, 3])).map (fun p =>
        (p.kernel.members .poll, p.polled 5, p.polled 4, decide p.InPoll)) =
      some ([5, 4], some [0, 1], some [2, 3], false) := by decide +kernel
  obtain ⟨p, hp, hfacts⟩ := Option.map_eq_some_iff.mp hrun
  simp only [Prod.mk.injEq, decide_eq_false_iff_not] at hfacts
  obtain ⟨hmembers, hfirst, hsecond, hcaller⟩ := hfacts
  have hworks := notifyWorks_of_allOk (by decide +kernel) hp hcaller
  exact ⟨p, hp, hmembers, hfirst, hsecond, hworks 1, hworks 2⟩

/-- The new thread polls the same file: the walk of the first does not come back to its
head any more. -/
theorem notifyWorks_not_when_shared :
    ∃ p, Runs.exec step (oneFile 7)
        (pollRun ++ pollCall [{ fd := fileReservedNum, events := 1#16 }]) = some p ∧
      p.kernel.members .poll = [5, 4] ∧ ¬ p.InPoll ∧ ¬ p.NotifyWorks 7 := by
  have hrun : (Runs.exec step (oneFile 7)
      (pollRun ++ pollCall [{ fd := fileReservedNum, events := 1#16 }])).map (fun p =>
        decide (p.kernel.members .poll = [5, 4] ∧ ¬ p.InPoll ∧
          p.kernel.links.next (.inl .poll) = .inr 5 ∧ p.files.next (.inl 5) = .inr 7 ∧
          p.files.next (.inr 7) = .inl 4 ∧ p.files.next (.inl 4) = .inr 7)) = some true := by
    decide +kernel
  obtain ⟨p, hp, hfacts⟩ := Option.map_eq_some_iff.mp hrun
  obtain ⟨hmembers, hcaller, hfirst, hhead, hfile, hother⟩ := of_decide_eq_true hfacts
  refine ⟨p, hp, hmembers, hcaller, ?_⟩
  rintro ⟨p', ⟨n, hn⟩, -⟩
  have hwalk : p.notifyThread n 7 p.kernel 5 = none := by
    rw [notifyThread, listForEach_eq_none (C := {.inr 7, .inl 4}) (fun _ _ => ⟨_, rfl⟩) (by simp)
      ?_ n p.kernel (by simp [next, hhead])]
    · rfl
    · rintro - n (rfl | rfl)
      · exact Or.inr hfile
      · exact Or.inl hother
  have hloop : p.kernel.forEachSafeM .poll (p.notifyThread n 7) = none := by
    have hnext : next p.kernel.links (.inl .poll : ListNode) = .inr 5 := hfirst
    rw [Kernel.forEachSafeM, hnext, Kernel.loopBound, listForEachSafe, if_neg (by simp)]
    simp [Kernel.listEntry, hwalk]
  have hreturn := hn n le_rfl
  rw [pollNotify, hloop] at hreturn
  cases hreturn

end PollSys

end Tenok
