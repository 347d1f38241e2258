import Mathlib.Data.List.TakeWhile
import Tenok.Kernel.MqueueLife

/-!
The names of message queues. A name is cut when it is stored, but compared over one more
character when a queue is looked up, so a name that is too long is never found.
-/
namespace Tenok
open Ring

namespace MqTable

/-- `acquire_mqueue` takes this queue for one of the name. -/
def Answers (name : List Byte) (mq : List Byte × Word) : Prop :=
  name.take nameMax = mq.1.take nameMax

end MqTable

/-- The message queues with the names that were opened with `O_CREAT` since the last
`sys_mq_unlink`, each with the queue that it was for, and the answers to the calls that asked
for one of these names with `O_CREAT` and `O_EXCL`. -/
structure MqNames where
  heap : MqHeap
  made : List (List Byte × Word)
  exclusive : List (Except Errno Nat)

namespace MqNames

/-- The answer of `sys_mq_open` to the thread that runs. -/
def reply (s : MqHeap) (name : List Byte) (oflag : Word) (attr : Option MqAttr)
    (newMq buf : Option Word) (links : Cells (MqList ⊕ Nat)) (elements : Nat → MqData) :
    Option (Except Errno Nat) := do
  let task ← s.kernel.currentTaskInfo
  let (_, r) ← s.table.sysMqOpen task name oflag attr newMq buf links elements
  some r

/-- The name was opened with `O_CREAT` and is asked for with `O_CREAT` and `O_EXCL`. -/
def Exclusive (s : MqNames) (name : List Byte) (oflag : Word) : Prop :=
  oflag &&& oCreat ≠ 0#32 ∧ oflag &&& oExcl ≠ 0#32 ∧ name ∈ s.made.map Prod.fst

instance decidableExclusive (s : MqNames) (name : List Byte) (oflag : Word) :
    Decidable (s.Exclusive name oflag) :=
  inferInstanceAs (Decidable (_ ∧ _ ∧ _))

/-- What is remembered of a call of `sys_mq_open` that left `heap`. -/
def record (s : MqNames) (heap : MqHeap) (name : List Byte) (oflag : Word) :
    Except Errno Nat → MqNames
  | .error e =>
      { s with
        heap := heap
        exclusive := if s.Exclusive name oflag then s.exclusive ++ [.error e] else s.exclusive }
  | .ok d =>
      { heap := heap
        made := if oflag &&& oCreat ≠ 0#32 then s.made ++ [(name, (heap.table.mqdTable d).mq)]
          else s.made
        exclusive := if s.Exclusive name oflag then s.exclusive ++ [.ok d] else s.exclusive }

def step (s : MqNames) : MqHeapEvent → Option MqNames
  | .mqOpen name oflag attr newMq buf links elements => do
      let heap ← s.heap.step (.mqOpen name oflag attr newMq buf links elements)
      let r ← reply s.heap name oflag attr newMq buf links elements
      some (s.record heap name oflag r)
  | .mqUnlink name => do
      let heap ← s.heap.step (.mqUnlink name)
      some { s with heap := heap, made := [] }
  | e => do
      let heap ← s.heap.step e
      some { s with heap }

/-- Equal names are for one queue and different names for different ones, a name that is there
cannot be created once more, and no two queues answer to one name. -/
structure NamesIdentify (s : MqNames) : Prop where
  same : ∀ m ∈ s.made, ∀ m' ∈ s.made, (m.2 = m'.2 ↔ m.1 = m'.1)
  exclusive : ∀ r ∈ s.exclusive, r = .error .eexist
  apart : s.heap.table.mqueueList.Pairwise fun mq mq' =>
    ∀ name, ¬ (MqTable.Answers name mq ∧ MqTable.Answers name mq')

/-- A queue is created with a name that is not cut, and there is a descriptor left when one is
to be created once more. No queue is removed: it would stay on the list, and its memory could be
given to the next one. -/
def NameOk (s : MqNames) : MqHeapEvent → Prop
  | .mqOpen name oflag _ _ _ _ _ =>
      (oflag &&& oCreat ≠ 0#32 → name.length < nameMax) ∧
        (s.Exclusive name oflag → ∃ d < mqueueMax, s.heap.table.bitmapMqds d = false)
  | e => s.heap.UnlinkOk e

instance decidableNameOk (s : MqNames) : (e : MqHeapEvent) → Decidable (s.NameOk e)
  | .mqOpen _ _ _ _ _ _ _ => inferInstanceAs (Decidable ((_ → _) ∧ (_ → _)))
  | .mqUnlink name => s.heap.decidableUnlinkOk (.mqUnlink name)
  | .mqClose _ | .mqSend .. | .mqReceive .. | .retry | .background _ =>
      inferInstanceAs (Decidable True)

/-- The names on the list are not cut, and neither they nor the queues repeat; the names that
were opened are on the list with their queues. -/
structure Listed (s : MqNames) : Prop where
  short : ∀ mq ∈ s.heap.table.mqueueList, mq.1.length < nameMax
  names : (s.heap.table.mqueueList.map Prod.fst).Nodup
  queues : (s.heap.table.mqueueList.map Prod.snd).Nodup
  made : ∀ m ∈ s.made, m ∈ s.heap.table.mqueueList
  exclusive : ∀ r ∈ s.exclusive, r = .error .eexist

end MqNames

namespace MqTable
variable {s s' : MqTable} {task : Pid} {name : List Byte} {oflag : Word} {attr : Option MqAttr}
  {newMq buf : Option Word} {links : Cells (MqList ⊕ Nat)} {elements : Nat → MqData} {d : Nat}
  {mq mq' : List Byte × Word}

theorem answers_iff (hname : name.length < nameMax) (hmq : mq.1.length < nameMax) :
    Answers name mq ↔ mq.1 = name := by
  rw [Answers, List.take_of_length_le hname.le, List.take_of_length_le hmq.le, eq_comm]

theorem acquireMqueue_none (h : s.acquireMqueue name = none) (hmq : mq ∈ s.mqueueList) :
    ¬ Answers name mq := by
  rw [acquireMqueue, Option.map_eq_none_iff, List.find?_eq_none] at h
  simpa [Answers] using h mq hmq

theorem acquireMqueue_some {q : Word} (h : s.acquireMqueue name = some q) :
    ∃ mq ∈ s.mqueueList, Answers name mq ∧ mq.2 = q := by
  obtain ⟨mq, hfind, rfl⟩ := Option.map_eq_some_iff.mp h
  exact ⟨mq, List.mem_of_find?_eq_some hfind, by simpa [Answers] using List.find?_some hfind, rfl⟩

theorem visited_of_none (h : s.acquireMqueue name = none) :
    s.visited name = s.mqueueList.map Prod.snd := by
  have hall : ∀ mq ∈ s.mqueueList, decide (name.take nameMax ≠ mq.1.take nameMax) = true :=
    fun mq hmq => decide_eq_true (acquireMqueue_none h hmq)
  simp only [visited, List.takeWhile_eq_self_iff.mpr hall, List.dropWhile_eq_nil_iff.mpr hall,
    List.take_nil, List.append_nil]

theorem sysMqOpen_ok_cases
    (h : s.sysMqOpen task name oflag attr newMq buf links elements = some (s', .ok d)) :
    (s.acquireMqueue name = some (s'.mqdTable d).mq ∧ s'.mqueueList = s.mqueueList) ∨
      (s.acquireMqueue name = none ∧ oflag &&& oCreat ≠ 0#32 ∧ newMq = some (s'.mqdTable d).mq ∧
        s'.mqueueList = s.mqueueList ++ [(name.take (nameMax - 1), (s'.mqdTable d).mq)]) := by
  rw [sysMqOpen] at h
  split at h
  · cases h
  split at h
  · next mq hmq =>
      split at h
      · cases h
      · cases h
        exact Or.inl ⟨by simp [register, hmq], rfl⟩
  · next hnone =>
      split at h
      · cases h
      · next hcreat =>
          obtain ⟨allocated, halloc, h⟩ := Option.bind_eq_some_iff.mp h
          cases newMq with
          | none => cases halloc
          | some addr =>
              obtain rfl := Option.some.inj halloc
              cases buf with
              | none => cases h
              | some b =>
                  cases h
                  exact Or.inr ⟨hnone, hcreat, by simp [register], by simp [register]⟩

theorem sysMqOpen_error {e : Errno}
    (h : s.sysMqOpen task name oflag attr newMq buf links elements = some (s', .error e)) :
    s' = s := by
  rw [sysMqOpen] at h
  split at h
  · cases h
    rfl
  split at h
  · split at h
    · cases h
      rfl
    · cases h
  · split at h
    · cases h
      rfl
    · obtain ⟨allocated, -, h⟩ := Option.bind_eq_some_iff.mp h
      cases allocated with
      | none =>
          cases h
          rfl
      | some mq => cases h

theorem sysMqOpen_exclusive {q : Word} {r : Except Errno Nat} (hname : s.acquireMqueue name = some q)
    (hcreat : oflag &&& oCreat ≠ 0#32) (hexcl : oflag &&& oExcl ≠ 0#32)
    (hfree : ∃ d < mqueueMax, s.bitmapMqds d = false)
    (h : s.sysMqOpen task name oflag attr newMq buf links elements = some (s', r)) :
    r = .error .eexist := by
  obtain ⟨d, hd, hbit⟩ := hfree
  rw [sysMqOpen, hname] at h
  split at h
  · next hnone =>
      rw [List.find?_eq_none] at hnone
      exact absurd hbit (by simpa using hnone d (List.mem_range.mpr hd))
  · simp only [hcreat, hexcl, ne_eq, not_false_eq_true, and_self, if_true] at h
    cases h
    rfl

end MqTable

namespace MqNames
open MqTable
variable {s s' : MqNames} {e : MqHeapEvent}

theorem Listed.namesIdentify (h : Listed s) : NamesIdentify s where
  same m hm m' hm' := by
    have hmem := h.made m hm
    have hmem' := h.made m' hm'
    constructor
    · intro hqueue
      rw [List.inj_on_of_nodup_map h.queues hmem hmem' hqueue]
    · intro hname
      rw [List.inj_on_of_nodup_map h.names hmem hmem' hname]
  exclusive := h.exclusive
  apart := by
    have hpairwise := List.pairwise_map.mp h.names
    refine hpairwise.imp_of_mem fun {mq mq'} hmq hmq' hne name hboth => hne ?_
    have hcut := hboth.1.symm.trans hboth.2
    rwa [List.take_of_length_le (h.short mq hmq).le,
      List.take_of_length_le (h.short mq' hmq').le] at hcut

theorem Listed.of_same (h : Listed s) {heap : MqHeap} {made : List (List Byte × Word)}
    (hlist : heap.table.mqueueList = s.heap.table.mqueueList)
    (hmade : ∀ m ∈ made, m ∈ s.heap.table.mqueueList) : Listed { s with heap, made } :=
  ⟨hlist ▸ h.short, hlist ▸ h.names, hlist ▸ h.queues, fun m hm => hlist ▸ hmade m hm,
    h.exclusive⟩

theorem heapStep_mqueueList {s s' : MqHeap} (hstep : s.step e = some s')
    (hopen : ∀ name oflag attr newMq buf links elements,
      e ≠ .mqOpen name oflag attr newMq buf links elements) :
    s'.table.mqueueList = s.table.mqueueList := by
  have hattempt : ∀ {c}, s.attempt c = some s' → s'.table.mqueueList = s.table.mqueueList := by
    intro c hattempt
    simp only [MqHeap.attempt, Option.ite_none_right_eq_some, Option.bind_eq_bind,
      Option.bind_eq_some_iff, Option.some.injEq] at hattempt
    obtain ⟨-, ⟨k, mq, again⟩, -, rfl⟩ := hattempt
    rfl
  have henter : ∀ {mqdes r found}, s.enter mqdes r found = some s' →
      s'.table.mqueueList = s.table.mqueueList := by
    intro mqdes r found henter
    cases found with
    | error e =>
        obtain rfl := Option.some.inj henter
        rfl
    | ok desc => exact hattempt henter
  cases e with
  | retry =>
      simp only [MqHeap.step, Option.ite_none_right_eq_some, Option.bind_eq_some_iff] at hstep
      obtain ⟨-, c, -, hstep⟩ := hstep
      exact hattempt hstep
  | background b =>
      obtain ⟨k, -, rfl⟩ := Option.map_eq_some_iff.mp hstep
      rfl
  | mqOpen name oflag attr newMq buf links elements =>
      exact absurd rfl (hopen name oflag attr newMq buf links elements)
  | mqClose mqdes =>
      simp only [MqHeap.step, MqHeap.call, Option.ite_none_right_eq_some, Option.bind_eq_some_iff,
        Option.some.injEq] at hstep
      obtain ⟨-, task, -, -, rfl⟩ := hstep
      rw [MqTable.sysMqClose_rest]
  | mqUnlink name =>
      simp only [MqHeap.step, MqHeap.call, Option.ite_none_right_eq_some,
        Option.bind_eq_some_iff] at hstep
      obtain ⟨-, task, -, -, hstep⟩ := hstep
      split at hstep
      · obtain rfl := Option.some.inj hstep
        rfl
      · obtain rfl := Option.some.inj hstep
        rfl
  | mqSend mqdes msgPtr msgLen msgPrio =>
      simp only [MqHeap.step, MqHeap.call, Option.ite_none_right_eq_some,
        Option.bind_eq_some_iff] at hstep
      obtain ⟨-, task, -, -, hstep⟩ := hstep
      exact henter hstep
  | mqReceive mqdes msgLen msgPrio =>
      simp only [MqHeap.step, MqHeap.call, Option.ite_none_right_eq_some,
        Option.bind_eq_some_iff] at hstep
      obtain ⟨-, task, -, -, hstep⟩ := hstep
      exact henter hstep

theorem opened_table (s : MqHeap) (table : MqTable) (name : List Byte) (newMq buf : Option Word) :
    (s.opened table name newMq buf).table = table := by
  rw [MqHeap.opened]
  split <;> rfl

theorem Listed.acquire (h : Listed s) {name : List Byte} (hname : name ∈ s.made.map Prod.fst) :
    ∃ q, s.heap.table.acquireMqueue name = some q := by
  obtain ⟨m, hm, rfl⟩ := List.mem_map.mp hname
  refine Option.ne_none_iff_exists'.mp fun hnone => ?_
  exact acquireMqueue_none hnone (h.made m hm) rfl

theorem Listed.linked {heap : MqHeap} {name : List Byte} {q : Word} (h : Listed s)
    (hshort : name.length < nameMax) (hnone : s.heap.table.acquireMqueue name = none)
    (hnew : q ∉ s.heap.table.mqueueList.map Prod.snd)
    (hlist : heap.table.mqueueList = s.heap.table.mqueueList ++ [(name, q)]) :
    Listed { s with heap, made := s.made ++ [(name, q)] } where
  short mq hmq := by
    rw [hlist] at hmq
    obtain hmq | rfl := List.mem_append.mp hmq |>.imp_right List.mem_singleton.mp
    · exact h.short mq hmq
    · exact hshort
  names := by
    rw [hlist, List.map_append]
    refine h.names.append (List.nodup_singleton name) ?_
    refine List.disjoint_singleton.mpr fun hname => ?_
    obtain ⟨mq, hmq, rfl⟩ := List.mem_map.mp hname
    exact acquireMqueue_none hnone hmq rfl
  queues := by
    rw [hlist, List.map_append]
    exact h.queues.append (List.nodup_singleton q) (List.disjoint_singleton.mpr hnew)
  made m hm := by
    rw [hlist]
    obtain hm | rfl := List.mem_append.mp hm |>.imp_right List.mem_singleton.mp
    · exact List.mem_append_left _ (h.made m hm)
    · exact List.mem_append_right _ List.mem_cons_self
  exclusive := h.exclusive

theorem Listed.record {heap : MqHeap} {name : List Byte} {oflag : Word} {attr : Option MqAttr}
    {newMq buf : Option Word} {links : Cells (MqList ⊕ Nat)} {elements : Nat → MqData}
    {r : Except Errno Nat} (h : Listed s)
    (hok : s.NameOk (.mqOpen name oflag attr newMq buf links elements))
    (hstep : s.heap.step (.mqOpen name oflag attr newMq buf links elements) = some heap)
    (hreply : reply s.heap name oflag attr newMq buf links elements = some r) :
    Listed (s.record heap name oflag r) := by
  simp only [MqHeap.step, MqHeap.call, Option.ite_none_right_eq_some, Option.bind_eq_bind,
    Option.bind_eq_some_iff, Option.some.injEq] at hstep
  obtain ⟨-, task, htask, ⟨hvisited, hfresh, -⟩, ⟨table, r'⟩, hopen, rfl⟩ := hstep
  obtain rfl : r' = r := by
    simpa [reply, htask, hopen] using hreply
  have htable := opened_table s.heap table name newMq buf
  have hexclusive : s.Exclusive name oflag → r' = .error .eexist := by
    intro hex
    obtain ⟨q, hq⟩ := h.acquire hex.2.2
    exact sysMqOpen_exclusive hq hex.1 hex.2.1 (hok.2 hex) hopen
  cases r' with
  | error e =>
      obtain rfl := sysMqOpen_error hopen
      have hsame := h.of_same (congrArg MqTable.mqueueList htable) h.made
      refine ⟨hsame.short, hsame.names, hsame.queues, hsame.made, fun r hr => ?_⟩
      simp only [MqNames.record] at hr
      split at hr
      · next hex =>
          obtain hr | rfl := List.mem_append.mp hr |>.imp_right List.mem_singleton.mp
          · exact h.exclusive r hr
          · exact hexclusive hex
      · exact h.exclusive r hr
  | ok d =>
      have hnot : ¬ s.Exclusive name oflag := by
        intro hex
        cases hexclusive hex
      simp only [MqNames.record, if_neg hnot, htable]
      obtain ⟨hfound, hlist⟩ | ⟨hnone, hcreat, rfl, hlist⟩ := sysMqOpen_ok_cases hopen
      · refine h.of_same ((congrArg MqTable.mqueueList htable).trans hlist) fun m hm => ?_
        split at hm
        · next hcreat =>
            obtain hm | rfl := List.mem_append.mp hm |>.imp_right List.mem_singleton.mp
            · exact h.made m hm
            · obtain ⟨mq, hmq, hanswers, hq⟩ := acquireMqueue_some hfound
              obtain rfl := (answers_iff (hok.1 hcreat) (h.short mq hmq)).mp hanswers
              rwa [← hq]
        · exact h.made m hm
      · have hshort := hok.1 hcreat
        rw [List.take_of_length_le (Nat.le_sub_one_of_lt hshort)] at hlist
        rw [if_pos hcreat]
        refine h.linked hshort hnone (fun hq => ?_) ((congrArg MqTable.mqueueList htable).trans hlist)
        rw [visited_of_none hnone] at hvisited
        have hused := List.all_eq_true.mp hvisited _ hq
        have hfree := hfresh.1
        simp [hused] at hfree

theorem step_listed (h : Listed s) (hok : s.NameOk e) (hstep : s.step e = some s') :
    Listed s' := by
  cases e with
  | mqOpen name oflag attr newMq buf links elements =>
      simp only [step, Option.bind_eq_bind, Option.bind_eq_some_iff, Option.some.injEq] at hstep
      obtain ⟨heap, hheap, r, hreply, rfl⟩ := hstep
      exact h.record hok hheap hreply
  | mqUnlink name =>
      simp only [step, Option.bind_eq_bind, Option.bind_eq_some_iff, Option.some.injEq] at hstep
      obtain ⟨heap, hheap, rfl⟩ := hstep
      exact h.of_same (heapStep_mqueueList hheap nofun) nofun
  | mqClose _ | mqSend _ _ _ _ | mqReceive _ _ _ | retry | background _ =>
      simp only [step, Option.bind_eq_bind, Option.bind_eq_some_iff, Option.some.injEq] at hstep
      obtain ⟨heap, hheap, rfl⟩ := hstep
      exact h.of_same (heapStep_mqueueList hheap nofun) h.made

theorem start_listed {s : MqHeap} (h : s.Started) : Listed ⟨s, [], []⟩ := by
  have hnil : s.table.mqueueList = [] := h.mqueueList
  refine ⟨?_, ?_, ?_, nofun, nofun⟩
  · rw [hnil]
    exact nofun
  · rw [hnil]
    exact List.nodup_nil
  · rw [hnil]
    exact List.nodup_nil

/-- Names identify queues in every run in which the names of queues that are created are not cut,
a descriptor is left when one is to be created once more, and no queue is removed. -/
theorem namesIdentify_of_nameOk {heap : MqHeap} {es : List MqHeapEvent} (hstart : heap.Started)
    (hok : Runs.AllOk NameOk step ⟨heap, [], []⟩ es)
    (hrun : Runs.exec step ⟨heap, [], []⟩ es = some s) : NamesIdentify s :=
  (Runs.exec_invariant (fun _ _ _ h hok hstep => step_listed h hok hstep) (start_listed hstart) hok
    hrun).namesIdentify

/-- Two queues, one of them opened again and asked for exclusively. -/
def twoNames : List MqHeapEvent :=
  [MqHeap.openNew [97#8] 0x20000000#32 0x20000200#32,
    MqHeap.openNew [97#8, 98#8] 0x20000400#32 0x20000600#32,
    MqHeap.openNew [97#8] 0x20000800#32 0x20000a00#32,
    .mqOpen [97#8] (oCreat ||| oExcl) none none none ⟨id, id⟩ fun _ => ⟨0#32, fun _ => 0#8⟩]

theorem namesIdentify_twoNames : ∃ s,
    Runs.exec step ⟨MqHeap.noQueues Kernel.crowdKernel, [], []⟩ twoNames = some s ∧
      s.made = [([97#8], 0x20000000#32), ([97#8, 98#8], 0x20000400#32), ([97#8], 0x20000000#32)] ∧
      s.exclusive.length = 1 ∧ NamesIdentify s := by
  have hread : (Runs.exec step ⟨MqHeap.noQueues Kernel.crowdKernel, [], []⟩ twoNames).map
      (fun s => (s.made, s.exclusive.length)) =
      some ([([97#8], 0x20000000#32), ([97#8, 98#8], 0x20000400#32), ([97#8], 0x20000000#32)],
        1) := by decide +kernel
  obtain ⟨s, hrun, hread⟩ := Option.map_eq_some_iff.mp hread
  obtain ⟨hmade, hexclusive⟩ := Prod.mk.inj hread
  have hok : Runs.AllOk NameOk step ⟨MqHeap.noQueues Kernel.crowdKernel, [], []⟩ twoNames := by
    decide +kernel
  exact ⟨s, hrun, hmade, hexclusive,
    namesIdentify_of_nameOk (MqHeap.noQueues_started _) hok hrun⟩

def longName : List Byte := List.replicate nameMax 97#8

/-- A name of `NAME_MAX` characters is opened twice with `O_CREAT`: there are two queues, whose
names are the same. -/
theorem namesIdentify_not_long : ∃ s,
    Runs.exec step ⟨MqHeap.noQueues Kernel.crowdKernel, [], []⟩
      [MqHeap.openNew longName 0x20000000#32 0x20000200#32,
        MqHeap.openNew longName 0x20000400#32 0x20000600#32] = some s ∧
      s.made = [(longName, 0x20000000#32), (longName, 0x20000400#32)] ∧ ¬ NamesIdentify s := by
  have hread : (Runs.exec step ⟨MqHeap.noQueues Kernel.crowdKernel, [], []⟩
      [MqHeap.openNew longName 0x20000000#32 0x20000200#32,
        MqHeap.openNew longName 0x20000400#32 0x20000600#32]).map MqNames.made =
      some [(longName, 0x20000000#32), (longName, 0x20000400#32)] := by decide +kernel
  obtain ⟨s, hrun, hmade⟩ := Option.map_eq_some_iff.mp hread
  refine ⟨s, hrun, hmade, fun h => ?_⟩
  have hsame := h.same (longName, 0x20000000#32) (by simp [hmade]) (longName, 0x20000400#32)
    (by simp [hmade])
  exact absurd (hsame.mpr rfl) (by decide)

end MqNames

end Tenok
