import Mathlib.Data.List.FinRange
import Tenok.Kernel.KernelRuns
import Tenok.Kernel.Mqueue
import Tenok.Lib.PrioFifo

/-!
A message queue over whole sequences of calls is a bounded priority queue. Each call
is made in a kernel state of its own, so that whatever happens between two calls is
covered; the state of the queue does not depend on it.
-/
namespace Tenok
open Ring Queues PrioFifo

namespace Mqueue

inductive MqCall
  | send (attr : MqAttr) (msgPtr : Nat → Byte) (msgLen : Word) (msgPrio : MqPrio)
  | receive (attr : MqAttr) (msgLen : Word) (msgPrio : Bool)

inductive MqAnswer
  | send (result : Except Errno Unit)
  | receive (result : Except Errno MqMessage)

/-- A queue and what was called and answered so far. -/
structure MqLog where
  mq : Mqueue
  log : List (MqCall × MqAnswer)

/-- A call on queue `q` that finds the kernel in some state. -/
def MqLog.step (q : Nat) (s : MqLog) : Kernel × MqCall → Option MqLog
  | (k, .send attr msgPtr msgLen msgPrio) => do
      let (_, mq, r) ← mqSend k q s.mq attr msgPtr msgLen msgPrio
      some ⟨mq, s.log ++ [(.send attr msgPtr msgLen msgPrio, .send r)]⟩
  | (k, .receive attr msgLen msgPrio) => do
      let (_, mq, r) ← mqReceive k q s.mq attr msgLen msgPrio
      some ⟨mq, s.log ++ [(.receive attr msgLen msgPrio, .receive r)]⟩

def visit (l : List (MqList ⊕ Nat)) (pos : MqList ⊕ Nat) : List (MqList ⊕ Nat) ⊕ Unit :=
  .inl (l ++ [pos])

/-- The elements that a walk along a list of the queue visits. -/
def entries (mq : Mqueue) (h : MqList) : List Nat :=
  (((listForEach (fun _ => mq.links) (.inl h) visit (mq.size.toNat + 1) []
    (next mq.links (.inl h))).bind Sum.getLeft?).getD []).filterMap listEntry

def usedEntries (mq : Mqueue) : List Nat :=
  (List.finRange (mqPrioMax + 1)).flatMap fun p => mq.entries (.used p)

def wouldBlock (attr : MqAttr) : Errno :=
  if attr.flags &&& oNonblock ≠ 0#32 then .eagain else .erestartsys

/-- What a priority queue for `size` messages answers: a send that is allowed adds the
message unless the queue is full, a receive that is allowed takes the next one unless
there is none. -/
def Answers (size : Nat) (h : History MqPrio (List Byte)) (call : MqCall) (answer : MqAnswer)
    (h' : History MqPrio (List Byte)) : Prop :=
  match call with
  | .send attr msgPtr msgLen msgPrio =>
      if unwritable attr then answer = .send (.error .ebadf) ∧ h' = h
      else if attr.msgsize < msgLen then answer = .send (.error .emsgsize) ∧ h' = h
      else if h.backlog = size then answer = .send (.error (wouldBlock attr)) ∧ h' = h
      else answer = .send (.ok ()) ∧ h' = h.send msgPrio (bytesAt msgPtr msgLen.toNat)
  | .receive attr msgLen msgPrio =>
      if unreadable attr then answer = .receive (.error .ebadf) ∧ h' = h
      else if msgLen < attr.msgsize then answer = .receive (.error .emsgsize) ∧ h' = h
      else if h.backlog = 0 then answer = .receive (.error (wouldBlock attr)) ∧ h' = h
      else ∃ i p m, h.Next i ∧ h.sent[i]? = some (p, m) ∧ h' = h.receive i ∧
        ∃ msg : MqMessage, answer = .receive (.ok msg) ∧ msg.data = m ∧
          msg.size.toNat = m.length ∧ msg.prio = if msgPrio then some p else none

/-- The log is one of a priority queue for `size` messages with this history. -/
inductive Explained (size : Nat) : List (MqCall × MqAnswer) → History MqPrio (List Byte) → Prop
  | nil : Explained size [] .empty
  | snoc {log h call answer h'} : Explained size log h → Answers size h call answer h' →
      Explained size (log ++ [(call, answer)]) h'

def usedOf (L : MqList → List Nat) : List Nat :=
  (List.finRange (mqPrioMax + 1)).flatMap fun p => L (.used p)

def message (mq : Mqueue) (e : Nat) : List Byte :=
  bytesAt (mq.elements e).data (mq.elements e).size.toNat

/-- Each element is on one list; `idx` tells the message that an element on a used list
stores. -/
structure Simulates (mq : Mqueue) (L : MqList → List Nat) (h : History MqPrio (List Byte))
    (idx : Nat → Nat) : Prop where
  rings : Rings mq.links Set.univ L
  inside : ∀ e, (∃ l, e ∈ L l) ↔ e < mq.size.toNat
  cnt : mq.cnt.toNat + (L .free).length = mq.size.toNat
  backlog : h.backlog = mq.cnt.toNat
  levels : ∀ p, (L (.used p)).map idx = h.level p
  stored : ∀ p, ∀ e ∈ L (.used p), h.sent[idx e]? = some (p, mq.message e)
  sound : h.Sound

section Lists

theorem initLists_rings (s : Cells (MqList ⊕ Nat)) :
    Rings (initLists s) Set.univ (fun _ => ([] : List Nat)) := by
  have hnone : Rings s (∅ : Set MqList) (fun _ => ([] : List Nat)) := ⟨by simp, by simp, by simp⟩
  have hfree := initListHead_rings hnone (h := .free) (by simp)
  have hnd : ((List.finRange (mqPrioMax + 1)).map MqList.used).Nodup :=
    (List.nodup_finRange _).map fun _ _ => MqList.used.inj
  have hheads : ∀ h : MqList, h ∈ (Set.univ : Set MqList) ↔
      h ∈ (insert .free ∅ : Set MqList) ∨ h ∈ (List.finRange (mqPrioMax + 1)).map MqList.used := by
    intro h
    cases h with
    | free => simp
    | used p => simp
  have hall := initListHeads_rings hfree hnd (by simp) hheads
  rwa [List.foldl_map] at hall

theorem linkElements_rings (s : Cells (MqList ⊕ Nat)) (size : Nat)
    (hr : Rings s Set.univ (fun _ : MqList => ([] : List Nat))) :
    Rings (linkElements s size) Set.univ
      (Function.update (fun _ => []) MqList.free (List.range size)) := by
  induction size with
  | zero =>
      rw [linkElements, List.range_zero, Function.update_eq_self_iff.mpr rfl]
      exact hr
  | succ n ih =>
      have hnew : ∀ g, n ∉ Function.update (fun _ => []) MqList.free (List.range n) g := by
        intro g
        by_cases hg : g = .free
        · simp [hg]
        · simp [hg]
      have hadd := listAdd_rings ih (Set.mem_univ MqList.free) hnew
      have hlink : linkElements s (n + 1) =
          listAdd (linkElements s n) (Sum.inr n) (Sum.inl MqList.free) := by
        simp [linkElements, List.range_succ]
      rw [hlink]
      simpa [enqueue, List.range_succ] using hadd

end Lists

namespace Simulates
variable {mq : Mqueue} {L : MqList → List Nat} {h : History MqPrio (List Byte)} {idx : Nat → Nat}
  {e : Nat} {l : List Nat} {p : MqPrio} {g : MqList}

theorem ring (hs : Simulates mq L h idx) (g : MqList) :
    IsRing mq.links (.inl g) ((L g).map .inr) :=
  hs.rings.ring g (Set.mem_univ g)

theorem listEmpty_eq (hs : Simulates mq L h idx) (g : MqList) :
    listEmpty mq.links (.inl g) = decide (L g = []) := by
  rw [Bool.eq_iff_iff, listEmpty_iff (hs.ring g), decide_eq_true_iff, List.map_eq_nil_iff]

theorem first_entry (hs : Simulates mq L h idx) (hl : L g = e :: l) :
    listEntry (next mq.links (.inl g)) = some e := by
  rw [(hs.ring g).next_head, hl]
  rfl

theorem notMem_of_first (hs : Simulates mq L h idx) {f : MqList} (hl : L g = e :: l) (hfg : f ≠ g) :
    e ∉ L f :=
  fun hmem => hfg (hs.rings.unique hmem (by rw [hl]; exact List.mem_cons_self))

theorem mem_transfer_iff (hs : Simulates mq L h idx) (hl : L g = e :: l) (f : MqList) (x : Nat) :
    (∃ a, x ∈ transfer L e f a) ↔ ∃ a, x ∈ L a := by
  constructor
  · rintro ⟨a, ha⟩
    obtain ⟨-, ha⟩ | ⟨rfl, -⟩ := hs.rings.mem_transfer.mp ha
    · exact ⟨a, ha⟩
    · exact ⟨g, hl ▸ List.mem_cons_self⟩
  · rintro ⟨a, ha⟩
    by_cases hx : x = e
    · exact ⟨f, hs.rings.mem_transfer.mpr (Or.inr ⟨hx, rfl⟩)⟩
    · exact ⟨a, hs.rings.mem_transfer.mpr (Or.inl ⟨hx, ha⟩)⟩

theorem transfer_eq (hs : Simulates mq L h idx) {f : MqList} (hl : L g = e :: l) (hfg : f ≠ g)
    (a : MqList) : transfer L e f a = if a = f then L f ++ [e] else if a = g then l else L a := by
  by_cases haf : a = f
  · subst haf
    rw [if_pos rfl, transfer, enqueue, Function.update_self,
      dequeue_of_notMem (hs.notMem_of_first hl hfg)]
  · rw [if_neg haf, transfer, enqueue_of_ne haf]
    by_cases hag : a = g
    · subst hag
      rw [if_pos rfl, dequeue, hl, List.erase_cons_head]
    · rw [if_neg hag, dequeue_of_notMem (hs.notMem_of_first hl hag)]

theorem mqIn_eq (hs : Simulates mq L h idx) (hl : L .free = e :: l) (msgPtr : Nat → Byte)
    (msgLen : Word) (p : MqPrio) : mq.mqIn msgPtr msgLen p = some { mq with
      elements := Function.update mq.elements e
        ⟨msgLen, memcpy (mq.elements e).data 0 msgPtr msgLen.toNat⟩
      cnt := mq.cnt + 1#32
      links := listMove mq.links (Sum.inr e) (Sum.inl (MqList.used p)) } := by
  simp only [Mqueue.mqIn, hs.first_entry hl, Option.bind_eq_bind, Option.bind_some]

theorem mqOut_eq (hs : Simulates mq L h idx) (hp : mq.highestUsed = some p)
    (hl : L (.used p) = e :: l) (msgPrio : Bool) : mq.mqOut msgPrio = some ({ mq with
      cnt := mq.cnt - 1#32
      links := listMove mq.links (Sum.inr e) (Sum.inl MqList.free) },
      ⟨mq.message e, (mq.elements e).size, if msgPrio then some p else none⟩) := by
  simp only [Mqueue.mqOut, hp, hs.first_entry hl, Option.bind_eq_bind, Option.bind_some]
  rfl

theorem exists_free (hs : Simulates mq L h idx) (hcnt : mq.cnt ≠ mq.size) :
    ∃ e l, L .free = e :: l := by
  cases hl : L .free with
  | nil =>
      have hlen := hs.cnt
      rw [hl, List.length_nil, Nat.add_zero] at hlen
      exact absurd (BitVec.eq_of_toNat_eq hlen) hcnt
  | cons e l => exact ⟨e, l, rfl⟩

theorem nodup_used (hs : Simulates mq L h idx) : (usedOf L).Nodup := by
  refine List.nodup_flatMap.mpr ⟨fun p _ => hs.rings.nodup _, ?_⟩
  refine (List.nodup_finRange (mqPrioMax + 1)).imp fun hpq => ?_
  intro e he he'
  exact hpq (MqList.used.inj (hs.rings.unique he he'))

theorem partition (hs : Simulates mq L h idx) :
    (L .free ++ usedOf L).Perm (List.range mq.size.toNat) := by
  have hmem : ∀ e, e ∈ L .free ++ usedOf L ↔ ∃ g, e ∈ L g := by
    intro e
    simp only [List.mem_append, usedOf, List.mem_flatMap, List.mem_finRange, true_and]
    constructor
    · rintro (he | ⟨p, he⟩)
      · exact ⟨.free, he⟩
      · exact ⟨.used p, he⟩
    · rintro ⟨g, he⟩
      cases g with
      | free => exact Or.inl he
      | used p => exact Or.inr ⟨p, he⟩
  have hnd : (L .free ++ usedOf L).Nodup := by
    refine List.nodup_append.mpr ⟨hs.rings.nodup _, hs.nodup_used, fun a ha b hb => ?_⟩
    rintro rfl
    obtain ⟨p, -, hp⟩ := List.mem_flatMap.mp hb
    cases hs.rings.unique ha hp
  refine (List.perm_ext_iff_of_nodup hnd List.nodup_range).mpr fun e => ?_
  rw [hmem, hs.inside, List.mem_range]

theorem length_used (hs : Simulates mq L h idx) : (usedOf L).length = mq.cnt.toNat := by
  have hlen := hs.partition.length_eq
  have hcnt := hs.cnt
  rw [List.length_append, List.length_range] at hlen
  omega

theorem highestUsed_eq (hs : Simulates mq L h idx) (hcnt : mq.cnt ≠ 0#32) :
    ∃ p e l, mq.highestUsed = some p ∧ L (.used p) = e :: l ∧ ∀ q, p < q → L (.used q) = [] := by
  have hlen : 0 < (usedOf L).length := by
    rw [hs.length_used]
    exact Nat.pos_of_ne_zero fun h0 => hcnt (BitVec.eq_of_toNat_eq h0)
  obtain ⟨e, he⟩ := List.exists_mem_of_length_pos hlen
  obtain ⟨p₀, -, he⟩ := List.mem_flatMap.mp he
  have hsome : mq.highestUsed.isSome = true := by
    refine List.find?_isSome.mpr ⟨p₀, by simp, ?_⟩
    rw [hs.listEmpty_eq]
    simpa using List.ne_nil_of_mem he
  obtain ⟨p, hp⟩ := Option.isSome_iff_exists.mp hsome
  obtain ⟨hne, hhigher⟩ := find?_reverse_finRange hp
  simp only [hs.listEmpty_eq, Bool.not_eq_true', decide_eq_false_iff_not, Bool.not_eq_false',
    decide_eq_true_eq] at hne hhigher
  obtain ⟨e, l, hl⟩ := List.exists_cons_of_ne_nil hne
  exact ⟨p, e, l, hp, hl, hhigher⟩

theorem mqIn (hs : Simulates mq L h idx) (hcnt : mq.cnt ≠ mq.size) (msgPtr : Nat → Byte)
    (msgLen : Word) (p : MqPrio) : ∃ mq' L' idx', mq.mqIn msgPtr msgLen p = some mq' ∧
      mq'.size = mq.size ∧
      Simulates mq' L' (h.send p (bytesAt msgPtr msgLen.toNat)) idx' := by
  obtain ⟨e, l, hl⟩ := hs.exists_free hcnt
  have hmoved := hs.transfer_eq hl (f := .used p) (by simp)
  have hroom : mq.cnt.toNat + 1 < 2 ^ 32 := by
    have h1 := hs.cnt
    have h2 := mq.size.isLt
    rw [hl, List.length_cons] at h1
    omega
  have hcnt' : (mq.cnt + 1#32).toNat = mq.cnt.toNat + 1 := by
    rw [BitVec.toNat_add]
    exact Nat.mod_eq_of_lt hroom
  -- The element was free, so it stores no message yet.
  have hfresh : ∀ q, ∀ x ∈ L (.used q), x ≠ e := by
    rintro q x hx rfl
    exact hs.notMem_of_first hl (by simp) hx
  have hidx : ∀ q, ∀ x ∈ L (.used q), Function.update idx e h.sent.length x = idx x :=
    fun q x hx => Function.update_of_ne (hfresh q x hx) ..
  refine ⟨_, transfer L e (.used p), Function.update idx e h.sent.length, hs.mqIn_eq hl .., rfl,
    listMove_rings hs.rings (hl ▸ List.mem_cons_self) (Set.mem_univ _),
    fun x => (hs.mem_transfer_iff hl _ x).trans (hs.inside x), ?_, ?_, fun q => ?_,
    fun q x hx => ?_, hs.sound.send ..⟩
  · have h1 := hs.cnt
    rw [hl, List.length_cons] at h1
    rw [hmoved, if_neg (by simp), if_pos rfl]
    change (mq.cnt + 1#32).toNat + l.length = mq.size.toNat
    omega
  · rw [History.backlog_send hs.sound, hs.backlog]
    exact hcnt'.symm
  · rw [hmoved, History.level_send hs.sound]
    have hold := (List.map_congr_left (hidx q)).trans (hs.levels q)
    by_cases hq : q = p
    · subst hq
      simp [← hold]
    · simp [hq, hold]
  · obtain ⟨hne, hx⟩ | ⟨rfl, hq⟩ := hs.rings.mem_transfer.mp hx
    · have hget := hs.stored q x hx
      rw [hidx q x hx, History.send, List.getElem?_append_left (List.getElem?_eq_some_iff.mp hget).1,
        hget]
      simp [message, hne]
    · obtain rfl := MqList.used.inj hq
      simp [History.send, message, bytesAt_memcpy]

theorem mqOut (hs : Simulates mq L h idx) (hcnt : mq.cnt ≠ 0#32) (msgPrio : Bool) :
    ∃ mq' L' i p m msg, mq.mqOut msgPrio = some (mq', msg) ∧ mq'.size = mq.size ∧ h.Next i ∧
      h.sent[i]? = some (p, m) ∧ msg.data = m ∧ msg.size.toNat = m.length ∧
      msg.prio = (if msgPrio then some p else none) ∧ Simulates mq' L' (h.receive i) idx := by
  obtain ⟨p, e, l, hfound, hl, hhigher⟩ := hs.highestUsed_eq hcnt
  have hmoved := hs.transfer_eq hl (f := .free) (by simp)
  have hmem : e ∈ L (.used p) := hl ▸ List.mem_cons_self
  have hcnt' : (mq.cnt - 1#32).toNat + 1 = mq.cnt.toNat := by
    have hpos : mq.cnt.toNat ≠ 0 := fun h0 => hcnt (BitVec.eq_of_toNat_eq h0)
    have hlt := mq.cnt.isLt
    rw [BitVec.toNat_sub]
    simp only [BitVec.toNat_ofNat]
    omega
  have hlevel : h.level p = idx e :: l.map idx := by rw [← hs.levels p, hl, List.map_cons]
  have hnext : h.Next (idx e) := History.next_of_level hlevel fun q hq => by
    rw [← hs.levels q, hhigher q hq, List.map_nil]
  refine ⟨_, transfer L e .free, idx e, p, mq.message e, _, hs.mqOut_eq hfound hl msgPrio, rfl,
    hnext, hs.stored p e hmem, rfl, by simp [message, bytesAt], rfl,
    listMove_rings hs.rings hmem (Set.mem_univ _),
    fun x => (hs.mem_transfer_iff hl _ x).trans (hs.inside x), ?_, ?_, fun q => ?_,
    fun q x hx => ?_, hs.sound.receive hnext.1⟩
  · have h1 := hs.cnt
    rw [hmoved, if_pos rfl, List.length_append, List.length_singleton]
    change (mq.cnt - 1#32).toNat + ((L .free).length + 1) = mq.size.toNat
    omega
  · rw [History.backlog_receive, hs.backlog]
    change mq.cnt.toNat - 1 = (mq.cnt - 1#32).toNat
    omega
  · rw [hmoved, History.level_receive, if_neg (by simp)]
    by_cases hq : q = p
    · subst hq
      rw [if_pos rfl, hlevel, List.erase_cons_head]
    · have hnotin : idx e ∉ h.level q := by
        intro hin
        have h1 := (History.mem_level.mp hin).2
        rw [hs.stored p e hmem] at h1
        exact hq (Option.some.inj h1).symm
      rw [if_neg (by simpa using hq), List.erase_of_not_mem hnotin, hs.levels]
  · obtain ⟨-, hx⟩ | ⟨-, hq⟩ := hs.rings.mem_transfer.mp hx
    · exact hs.stored q x hx
    · cases hq

theorem entries_eq (hs : Simulates mq L h idx) (g : MqList) : mq.entries g = L g := by
  have hring := hs.ring g
  have hbound : (L g).length < mq.size.toNat + 1 := by
    have hsub : L g ⊆ List.range mq.size.toNat := fun e he =>
      List.mem_range.mpr ((hs.inside e).mp ⟨g, he⟩)
    simpa using Nat.lt_succ_of_le (List.subperm_of_subset (hs.rings.nodup g) hsub).length_le
  have hwalk : ∀ l acc : List (MqList ⊕ Nat), forEach visit acc l = .inl (acc ++ l) := by
    intro l
    induction l with
    | nil => simp [forEach]
    | cons x l ih => simp [forEach, visit, ih]
  have hloop : listForEach (fun _ => mq.links) (.inl g) visit (mq.size.toNat + 1) []
      (next mq.links (.inl g)) = some (forEach visit [] ((L g).map Sum.inr)) :=
    listForEach_eq (fun _ _ _ _ => rfl) _ _ hring.segment.path hring.head_notMem (by simpa using hbound)
  rw [entries, hloop, hwalk]
  simp only [List.nil_append, Option.bind_some, Sum.getLeft?_inl, Option.getD_some,
    List.filterMap_map]
  exact List.filterMap_some

theorem usedEntries_eq (hs : Simulates mq L h idx) : mq.usedEntries = usedOf L := by
  simp only [usedEntries, usedOf, hs.entries_eq]

end Simulates

theorem simulates_mqAllocate {newMq buf : Option Word} {links : Cells (MqList ⊕ Nat)}
    {elements : Nat → MqData} {attr : MqAttr} {mq : Mqueue}
    (halloc : mqAllocate newMq buf links elements attr = some (some mq)) :
    mq.size = attr.maxmsg ∧ ∃ L, Simulates mq L .empty id := by
  cases newMq with
  | none => cases halloc
  | some _ =>
      obtain ⟨buf, -, rfl⟩ := Option.map_eq_some_iff.mp (Option.some.inj halloc)
      refine ⟨rfl, _, linkElements_rings _ _ (initLists_rings links), fun e => ?_, ?_, rfl,
        fun p => by simp [History.level_empty], by simp, History.Sound.empty⟩
      · constructor
        · rintro ⟨g, he⟩
          by_cases hg : g = .free
          · simpa [hg] using he
          · simp [hg] at he
        · intro he
          exact ⟨.free, by simpa using he⟩
      · simp

namespace Simulates
variable {mq mq' : Mqueue} {L : MqList → List Nat} {h : History MqPrio (List Byte)}
  {idx : Nat → Nat} {k k' : Kernel} {q : Nat} {attr : MqAttr} {msgLen : Word}

theorem empty_iff (hs : Simulates mq L h idx) : mq.mqLen ≤ 0#32 ↔ h.backlog = 0 := by
  rw [hs.backlog, BitVec.le_zero_iff]
  exact (BitVec.toNat_inj (y := 0#32)).symm

theorem full_iff (hs : Simulates mq L h idx) : mq.mqAvail ≤ 0#32 ↔ h.backlog = mq.size.toNat := by
  have hcnt := hs.cnt
  have hsub : mq.mqAvail.toNat = mq.size.toNat - mq.cnt.toNat :=
    BitVec.toNat_sub_of_le (BitVec.le_def.mpr (by omega))
  rw [hs.backlog, BitVec.le_def, hsub]
  simp only [BitVec.toNat_ofNat]
  omega

theorem mqBlock_snd (k : Kernel) (attr : MqAttr) (queue : WaitQueue) :
    (mqBlock k attr queue).2 = wouldBlock attr := by
  rw [mqBlock, wouldBlock]
  split
  · rfl
  · rfl

/-- Whatever the kernel is like, a send that comes back is one of the priority queue. -/
theorem mqSend {msgPtr : Nat → Byte} {msgPrio : MqPrio} {r : Except Errno Unit}
    (hs : Simulates mq L h idx)
    (hsend : mqSend k q mq attr msgPtr msgLen msgPrio = some (k', mq', r)) :
    mq'.size = mq.size ∧ ∃ L' h' idx', Simulates mq' L' h' idx' ∧
      Answers mq.size.toNat h (.send attr msgPtr msgLen msgPrio) (.send r) h' := by
  simp only [Mqueue.mqSend, hs.full_iff] at hsend
  simp only [Answers]
  split at hsend
  · next hflag =>
      obtain ⟨-, rfl, rfl⟩ := hsend
      exact ⟨rfl, L, h, idx, hs, by simp [hflag]⟩
  · next hflag =>
      split at hsend
      · next hlen =>
          obtain ⟨-, rfl, rfl⟩ := hsend
          exact ⟨rfl, L, h, idx, hs, by simp [hflag, hlen]⟩
      · next hlen =>
          split at hsend
          · next hfull =>
              obtain ⟨-, rfl, rfl⟩ := hsend
              exact ⟨rfl, L, h, idx, hs, by simp [hflag, hlen, hfull, mqBlock_snd]⟩
          · next hfull =>
              have hcnt : mq.cnt ≠ mq.size := fun heq => hfull (heq ▸ hs.backlog)
              obtain ⟨mq₁, L', idx', hin, hsize, hs'⟩ := hs.mqIn hcnt msgPtr msgLen msgPrio
              simp only [hin, Option.bind_eq_bind, Option.bind_some, Option.bind_eq_some_iff] at hsend
              obtain ⟨k₁, -, hres⟩ := hsend
              obtain ⟨-, rfl, rfl⟩ := hres
              exact ⟨hsize, L', _, idx', hs', by simp [hflag, hlen, hfull]⟩

theorem mqReceive {msgPrio : Bool} {r : Except Errno MqMessage} (hs : Simulates mq L h idx)
    (hreceive : mqReceive k q mq attr msgLen msgPrio = some (k', mq', r)) :
    mq'.size = mq.size ∧ ∃ L' h' idx', Simulates mq' L' h' idx' ∧
      Answers mq.size.toNat h (.receive attr msgLen msgPrio) (.receive r) h' := by
  simp only [Mqueue.mqReceive, hs.empty_iff] at hreceive
  simp only [Answers]
  split at hreceive
  · next hflag =>
      obtain ⟨-, rfl, rfl⟩ := hreceive
      exact ⟨rfl, L, h, idx, hs, by simp [hflag]⟩
  · next hflag =>
      split at hreceive
      · next hlen =>
          obtain ⟨-, rfl, rfl⟩ := hreceive
          exact ⟨rfl, L, h, idx, hs, by simp [hflag, hlen]⟩
      · next hlen =>
          split at hreceive
          · next hempty =>
              obtain ⟨-, rfl, rfl⟩ := hreceive
              exact ⟨rfl, L, h, idx, hs, by simp [hflag, hlen, hempty, mqBlock_snd]⟩
          · next hempty =>
              have hcnt : mq.cnt ≠ 0#32 := fun heq => hempty (by simpa [heq] using hs.backlog)
              obtain ⟨mq₁, L', i, p, m, msg, hout, hsize, hnext, hget, hmsg, hlen', hprio, hs'⟩ :=
                hs.mqOut hcnt msgPrio
              simp only [hout, Option.bind_eq_bind, Option.bind_some,
                Option.bind_eq_some_iff] at hreceive
              obtain ⟨k₁, -, hres⟩ := hreceive
              obtain ⟨-, rfl, rfl⟩ := hres
              refine ⟨hsize, L', _, idx, hs', ?_⟩
              rw [if_neg hflag, if_neg hlen, if_neg hempty]
              exact ⟨i, p, m, hnext, hget, rfl, msg, rfl, hmsg, hlen', hprio⟩

end Simulates

theorem wakeUp_isSome {k : Kernel} (hk : k.Consistent) (queue : WaitQueue)
    (hq : (SchedList.wait queue).owner = none) : ∃ k', k.wakeUp (.wait queue) = some k' := by
  obtain ⟨L, hT, -⟩ := hk
  have hin : SchedList.wait queue ∈ inUse {t | k.Alive t} := by simp [inUse, hq]
  obtain ⟨-, hwake⟩ | ⟨-, t, -, -, -, -, -, hwake⟩ := hT.wakeUp hin
  · exact ⟨k, hwake⟩
  · exact ⟨_, hwake⟩

section Calls
variable {s s' : MqLog} {size q : Nat} {k : Kernel} {call : MqCall}

/-- The log so far is that of a priority queue, and the lists are in step with it. -/
def Explains (size : Nat) (s : MqLog) : Prop :=
  s.mq.size.toNat = size ∧ ∃ L h idx, Simulates s.mq L h idx ∧ Explained size s.log h

theorem Explains.step (hs : Explains size s) (hstep : s.step q (k, call) = some s') :
    Explains size s' := by
  obtain ⟨rfl, L, h, idx, hsim, hlog⟩ := hs
  cases call with
  | send attr msgPtr msgLen msgPrio =>
      obtain ⟨⟨k', mq', r⟩, hsend, hres⟩ := Option.bind_eq_some_iff.mp hstep
      obtain rfl := Option.some.inj hres
      obtain ⟨hsize, L', h', idx', hsim', hans⟩ := hsim.mqSend hsend
      exact ⟨congrArg BitVec.toNat hsize, L', h', idx', hsim', hlog.snoc hans⟩
  | receive attr msgLen msgPrio =>
      obtain ⟨⟨k', mq', r⟩, hreceive, hres⟩ := Option.bind_eq_some_iff.mp hstep
      obtain rfl := Option.some.inj hres
      obtain ⟨hsize, L', h', idx', hsim', hans⟩ := hsim.mqReceive hreceive
      exact ⟨congrArg BitVec.toNat hsize, L', h', idx', hsim', hlog.snoc hans⟩

theorem Explains.returns (hs : Explains size s) (hk : k.Consistent) :
    ∃ s', s.step q (k, call) = some s' := by
  obtain ⟨rfl, L, h, idx, hsim, hlog⟩ := hs
  cases call with
  | send attr msgPtr msgLen msgPrio =>
      obtain ⟨k', hwake⟩ := wakeUp_isSome hk (.mqueueRead q) rfl
      simp only [MqLog.step, Mqueue.mqSend, hsim.full_iff]
      split
      · exact ⟨_, rfl⟩
      · split
        · exact ⟨_, rfl⟩
        · split
          · exact ⟨_, rfl⟩
          · next hfull =>
              have hcnt : s.mq.cnt ≠ s.mq.size := fun heq => hfull (heq ▸ hsim.backlog)
              obtain ⟨mq', _, _, hin, -⟩ := hsim.mqIn hcnt msgPtr msgLen msgPrio
              simp [hin, hwake]
  | receive attr msgLen msgPrio =>
      obtain ⟨k', hwake⟩ := wakeUp_isSome hk (.mqueueWrite q) rfl
      simp only [MqLog.step, Mqueue.mqReceive, hsim.empty_iff]
      split
      · exact ⟨_, rfl⟩
      · split
        · exact ⟨_, rfl⟩
        · split
          · exact ⟨_, rfl⟩
          · next hempty =>
              have hcnt : s.mq.cnt ≠ 0#32 :=
                fun heq => hempty (by simpa [heq] using hsim.backlog)
              obtain ⟨mq', _, _, _, _, _, hout, -⟩ := hsim.mqOut hcnt msgPrio
              simp [hout, hwake]

/-- What holds of a queue for `size` messages after any calls: the answers are those of a
priority queue, no message was received twice, each element is on one list, and the
counter tells how many are on used lists. -/
structure BoundedPrioFifo (size : Nat) (s : MqLog) : Prop where
  explained : ∃ h, Explained size s.log h ∧ h.received.Nodup
  partition : (s.mq.entries .free ++ s.mq.usedEntries).Perm (List.range size)
  cnt : s.mq.cnt.toNat = s.mq.usedEntries.length
  bounded : s.mq.cnt.toNat ≤ size

theorem Explains.boundedPrioFifo (hs : Explains size s) : BoundedPrioFifo size s := by
  obtain ⟨rfl, L, h, idx, hsim, hlog⟩ := hs
  refine ⟨⟨h, hlog, hsim.sound.nodup⟩, ?_, ?_, ?_⟩
  · rw [hsim.entries_eq, hsim.usedEntries_eq]
    exact hsim.partition
  · rw [hsim.usedEntries_eq, hsim.length_used]
  · have hcnt := hsim.cnt
    omega

/-- Every sequence of calls on a new queue is one on a bounded priority queue; and while
the lists of the kernel are well formed every call comes back. -/
theorem mqueue_boundedPrioFifo {newMq buf : Option Word} {links : Cells (MqList ⊕ Nat)}
    {elements : Nat → MqData} {attr : MqAttr} {mq : Mqueue}
    (halloc : mqAllocate newMq buf links elements attr = some (some mq)) (q : Nat)
    (calls : List (Kernel × MqCall)) :
    (∀ s, Runs.exec (MqLog.step q) ⟨mq, []⟩ calls = some s →
      BoundedPrioFifo attr.maxmsg.toNat s) ∧
    ((∀ c ∈ calls, c.1.Consistent) → ∃ s, Runs.exec (MqLog.step q) ⟨mq, []⟩ calls = some s) := by
  obtain ⟨hsize, L, hsim⟩ := simulates_mqAllocate halloc
  have hinit : Explains attr.maxmsg.toNat ⟨mq, []⟩ :=
    ⟨congrArg BitVec.toNat hsize, L, .empty, id, hsim, .nil⟩
  have hstep : ∀ (s : MqLog) c s', Explains attr.maxmsg.toNat s → s.step q c = some s' →
      Explains attr.maxmsg.toNat s' := fun _ _ _ hs hstep => hs.step hstep
  have hreturns : ∀ (s : MqLog) (c : Kernel × MqCall), Explains attr.maxmsg.toNat s →
      c.1.Consistent → ∃ s', s.step q c = some s' ∧ Explains attr.maxmsg.toNat s' := by
    intro s c hs hc
    obtain ⟨s', hs'⟩ := hs.returns hc
    exact ⟨s', hs', hs.step hs'⟩
  refine ⟨fun s hrun => ?_, fun hk => ?_⟩
  · have hfinal := Runs.exec_keeps hstep hinit hrun
    exact hfinal.boundedPrioFifo
  · obtain ⟨s, hrun, -⟩ := Runs.exec_of_allOk hreturns hinit
      (Runs.allOk_of_forall fun c hc _ => hk c hc)
    exact ⟨s, hrun⟩

/-- A queue for two messages of four bytes, open for reading and writing. -/
def pairAttr : MqAttr := ⟨oRdwr, 2#32, 4#32⟩

/-- An urgent message overtakes, and a third one finds the queue full. -/
def overtakingCalls : List (Kernel × MqCall) :=
  [(Kernel.schedStart, .send pairAttr (fun _ => 7#8) 1#32 0),
    (Kernel.schedStart, .send pairAttr (fun i => BitVec.ofNat 8 i) 3#32 5),
    (Kernel.schedStart, .send pairAttr (fun _ => 0#8) 1#32 5),
    (Kernel.schedStart, .receive pairAttr 4#32 true)]

theorem mqueue_boundedPrioFifo_at_pair : ∃ mq s,
    mqAllocate (some 0x20000000#32) (some 0x20000100#32) ⟨id, id⟩ (fun _ => ⟨0#32, fun _ => 0#8⟩)
      pairAttr = some (some mq) ∧
    Runs.exec (MqLog.step 0) ⟨mq, []⟩ overtakingCalls = some s ∧ BoundedPrioFifo 2 s := by
  obtain ⟨mq, halloc⟩ : ∃ mq, mqAllocate (some 0x20000000#32) (some 0x20000100#32) ⟨id, id⟩
      (fun _ => ⟨0#32, fun _ => 0#8⟩) pairAttr = some (some mq) := ⟨_, rfl⟩
  have hall := mqueue_boundedPrioFifo halloc 0 overtakingCalls
  obtain ⟨s, hrun⟩ := hall.2 fun c hc => by
    simp only [overtakingCalls, List.mem_cons, List.not_mem_nil, or_false] at hc
    rcases hc with rfl | rfl | rfl | rfl <;> exact Kernel.schedStart_spec
  exact ⟨mq, s, halloc, hrun, hall.1 s hrun⟩

end Calls

end Mqueue

end Tenok
