import Tenok.Kernel.MqueueMemory

/-!
The wake-ups of a message queue in memory. As long as every message that is stored has room in its
element, the memory is that of a queue whose elements are apart, and the calls do to it what they do
to that queue.
-/
namespace Tenok
open Ring Mqueue

/-- The memory at `mq` is the queue `t`, as far as the calls look at it. -/
structure Represents (attr : MqAttr) (mq buf : Word) (m : Ram) (t : Mqueue) : Prop where
  sizes : Ram.sizes mq m = (t.size, t.cnt)
  maxmsg : t.size = attr.maxmsg
  links : Mirrors m t.links (nodeAt attr mq buf) (nodesBelow attr.maxmsg.toNat)

namespace Represents
variable {attr : MqAttr} {mq buf : Word} {m m' : Ram} {t t' : Mqueue} {msgPtr : Nat → Byte}
  {msgLen : Word} {msgPrio : Bool} {p : MqPrio} {msg : MqMessage}

theorem listEmpty_eq (hp : Placed attr mq buf) (hr : Represents attr mq buf m t) (l : MqList) :
    listEmpty m (headAt mq l) = listEmpty t.links (.inl l) := by
  have hmem := head_mem attr.maxmsg.toNat l
  have hnext := hr.links.next_eq _ hmem
  rw [listEmpty, listEmpty, decide_eq_decide]
  constructor
  · intro h
    by_contra hne
    exact LinkStore.apart_ne (hp.nodes_apart _ (hr.links.next_mem _ hmem) _ hmem hne)
      (hnext.symm.trans h)
  · intro h
    exact hnext.trans (congrArg (nodeAt attr mq buf) h)

theorem highestUsed_eq (hp : Placed attr mq buf) (hr : Represents attr mq buf m t) :
    m.highestUsed mq = t.highestUsed := by
  have hsame : (fun p : MqPrio => !listEmpty m (headAt mq (.used p))) =
      fun p => !listEmpty t.links (.inl (.used p)) :=
    funext fun p => by rw [hr.listEmpty_eq hp]
  rw [Ram.highestUsed, Mqueue.highestUsed, hsame]

/-- The entry that the first link of a list leads to. -/
theorem first_entry (hr : Represents attr mq buf m t) {l : MqList} {e : Nat}
    (he : listEntry (next t.links (.inl l)) = some e) :
    (.inr e : MqList ⊕ Nat) ∈ nodesBelow attr.maxmsg.toNat ∧
      next m (headAt mq l) = mqElementAddr attr buf e := by
  have hmem := head_mem attr.maxmsg.toNat l
  have hnext : next t.links (.inl l) = .inr e := by
    revert he
    cases next t.links (.inl l) with
    | inl h => exact fun h => by cases h
    | inr i => exact fun h => congrArg Sum.inr (Option.some.inj h)
  exact ⟨hnext ▸ hr.links.next_mem _ hmem,
    (hr.links.next_eq _ hmem).trans (congrArg (nodeAt attr mq buf) hnext)⟩

/-- A counter and a link are changed. -/
theorem move (hp : Placed attr mq buf) (hr : Represents attr mq buf m t) {e : Nat}
    (he : (.inr e : MqList ⊕ Nat) ∈ nodesBelow attr.maxmsg.toNat) (cnt : Word) (l : MqList) :
    Represents attr mq buf
      (listMove (m.store (cntAt mq) cnt) (mqElementAddr attr buf e) (headAt mq l))
      { t with cnt, links := listMove t.links (.inr e) (.inl l) } := by
  have hcnt : Mirrors (m.store (cntAt mq) cnt) t.links (nodeAt attr mq buf)
      (nodesBelow attr.maxmsg.toNat) :=
    mirrors_congr hr.links fun x hx a ha => Ram.store_outside fun h =>
      hp.field_apart (k := 40) (by decide) h hx ha
  have hsizes : Ram.sizes mq (m.store (cntAt mq) cnt) = (t.size, cnt) := by
    refine Prod.ext ?_ (Ram.load_store_self ..)
    have hsize : m.load (sizeAt mq) = t.size := congrArg Prod.fst hr.sizes
    exact Eq.trans (Ram.load_store fun a => Placed.fields_apart (k := 36) (j := 40) (by decide)
      (by decide) (by decide)) hsize
  obtain ⟨hlinks, hkeep⟩ := listMove_mirrors hp.nodes_apart subset_rfl hp.beside hcnt he
    (head_mem _ l)
  exact ⟨hkeep.trans hsizes, hr.maxmsg, hlinks⟩

theorem mqIn (hp : Placed attr mq buf) (hr : Represents attr mq buf m t)
    (hfits : mqueueDataSize.toNat + msgLen.toNat ≤ (mqElementSize attr).toNat)
    (hin : t.mqIn msgPtr msgLen p = some t') :
    Represents attr mq buf (m.mqIn mq msgPtr msgLen p) t' := by
  simp only [Mqueue.mqIn, Option.bind_eq_bind, Option.bind_eq_some_iff, Option.some.injEq] at hin
  obtain ⟨e, he, rfl⟩ := hin
  obtain ⟨hmem, hnext⟩ := hr.first_entry he
  have hlt : e < attr.maxmsg.toNat := hmem e rfl
  rw [toNat_mqElementSize] at hfits
  have hroom : 8 + (4 + msgLen.toNat) ≤ roundedElement attr := by
    have h12 : mqueueDataSize.toNat = 12 := rfl
    omega
  have hbound : 12 + msgLen.toNat < 2 ^ 32 := by
    have hsize := (mqElementSize attr).isLt
    rw [toNat_mqElementSize] at hsize
    omega
  -- The message goes into the element only.
  have hstored : Represents attr mq buf (mqStore m (mqElementAddr attr buf e) msgPtr msgLen)
      { t with elements := Function.update t.elements e
                ⟨msgLen, memcpy (t.elements e).data 0 msgPtr msgLen.toNat⟩ } := by
    refine ⟨?_, hr.maxmsg, mirrors_congr hr.links fun x hx a ha => ?_⟩
    · rw [← hr.sizes]
      exact Prod.ext
        (Ram.load_congr fun a ha => mqStore_outside hbound fun h =>
          hp.message_field (k := 36) hlt hroom h (by decide) ha)
        (Ram.load_congr fun a ha => mqStore_outside hbound fun h =>
          hp.message_field (k := 40) hlt hroom h (by decide) ha)
    · exact mqStore_outside hbound fun h => hp.message_apart hlt hroom h hx ha
  have hcnt : Ram.load (mqStore m (mqElementAddr attr buf e) msgPtr msgLen) (cntAt mq) = t.cnt :=
    congrArg Prod.snd hstored.sizes
  rw [Ram.mqIn, hnext, hcnt]
  exact hstored.move hp hmem _ _

theorem mqOut (hp : Placed attr mq buf) (hr : Represents attr mq buf m t)
    (hout : t.mqOut msgPrio = some (t', msg)) :
    ∃ m' msg', m.mqOut mq msgPrio = some (m', msg') ∧ Represents attr mq buf m' t' := by
  simp only [Mqueue.mqOut, Option.bind_eq_bind, Option.bind_eq_some_iff, Option.some.injEq,
    Prod.mk.injEq] at hout
  obtain ⟨prio, hprio, e, he, rfl, -⟩ := hout
  obtain ⟨hmem, hnext⟩ := hr.first_entry he
  have hcnt : m.load (cntAt mq) = t.cnt := congrArg Prod.snd hr.sizes
  have hmoved := hr.move hp hmem (t.cnt - 1#32) .free
  rw [← hcnt, ← hnext] at hmoved
  rw [Ram.mqOut, hr.highestUsed_eq hp, hprio, ← hcnt]
  exact ⟨_, _, rfl, hmoved⟩

theorem mqLen_eq (hr : Represents attr mq buf m t) : m.mqLen mq = t.mqLen :=
  congrArg Prod.snd hr.sizes

theorem mqAvail_eq (hr : Represents attr mq buf m t) : m.mqAvail mq = t.mqAvail :=
  congrArg (fun s : Word × Word => s.1 - s.2) hr.sizes

theorem room_eq (hr : Represents attr mq buf m t) (d : PipeSide) : m.room mq d = t.room d := by
  cases d with
  | read => exact congrArg BitVec.toNat hr.mqLen_eq
  | write => exact congrArg BitVec.toNat hr.mqAvail_eq

variable {k k' : Kernel} {q : Nat} {desc : MqAttr} {again : Bool}

/-- The queue is one that the calls led to. -/
def Kept (t : Mqueue) : Prop := ∃ L h idx, Simulates t L h idx

theorem receive (hp : Placed attr mq buf) (hr : Represents attr mq buf m t) (hkept : Kept t)
    (hserve : Ram.serve mq q k m (.receive desc msgLen msgPrio) = some (k', m', again)) :
    ∃ t', Mqueue.serve q k t (.receive desc msgLen msgPrio) = some (k', t', again) ∧
      Represents attr mq buf m' t' ∧ Kept t' := by
  obtain ⟨⟨k₁, m₁, r⟩, hreceive, heq⟩ := Option.map_eq_some_iff.mp hserve
  obtain ⟨rfl, rfl, rfl⟩ : k₁ = k' ∧ m₁ = m' ∧ restart r = again := by simpa using heq
  rw [Ram.mqReceive, hr.mqLen_eq] at hreceive
  rw [Mqueue.serve, Mqueue.mqReceive]
  split at hreceive
  · next hunreadable =>
      obtain ⟨rfl, rfl, rfl⟩ := hreceive
      exact ⟨t, by rw [if_pos hunreadable]; rfl, hr, hkept⟩
  next hunreadable =>
  rw [if_neg hunreadable]
  split at hreceive
  · next hsize =>
      obtain ⟨rfl, rfl, rfl⟩ := hreceive
      exact ⟨t, by rw [if_pos hsize]; rfl, hr, hkept⟩
  next hsize =>
  rw [if_neg hsize]
  split at hreceive
  · next hempty =>
      obtain ⟨rfl, rfl, rfl⟩ := hreceive
      exact ⟨t, by rw [if_pos hempty]; rfl, hr, hkept⟩
  next hempty =>
  rw [if_neg hempty]
  obtain ⟨L, h, idx, hs⟩ := hkept
  obtain ⟨t', L', i, p, message, msg, hout, -, -, -, -, -, -, hs'⟩ :=
    hs.mqOut (fun h0 => hempty (Nat.le_of_eq (congrArg BitVec.toNat h0))) msgPrio
  obtain ⟨m₂, msg₂, hout₂, hr'⟩ := hr.mqOut hp hout
  simp only [hout₂, Option.bind_eq_bind, Option.bind_some, Option.bind_eq_some_iff] at hreceive
  obtain ⟨k₂, hwake, heq⟩ := hreceive
  obtain ⟨rfl, rfl, rfl⟩ : k₂ = k₁ ∧ m₂ = m₁ ∧ .ok msg₂ = r := by simpa using heq
  exact ⟨t', by simp only [hout, hwake, Option.bind_eq_bind, Option.bind_some]; rfl, hr',
    L', _, idx, hs'⟩

theorem send (hp : Placed attr mq buf) (hr : Represents attr mq buf m t) (hkept : Kept t)
    (hfits : unwritable desc = false → ¬ desc.msgsize < msgLen → ¬ m.mqAvail mq ≤ 0#32 →
      mqueueDataSize.toNat + msgLen.toNat ≤ (mqElementSize attr).toNat)
    (hserve : Ram.serve mq q k m (.send desc msgPtr msgLen p) = some (k', m', again)) :
    ∃ t', Mqueue.serve q k t (.send desc msgPtr msgLen p) = some (k', t', again) ∧
      Represents attr mq buf m' t' ∧ Kept t' := by
  obtain ⟨⟨k₁, m₁, r⟩, hsend, heq⟩ := Option.map_eq_some_iff.mp hserve
  obtain ⟨rfl, rfl, rfl⟩ : k₁ = k' ∧ m₁ = m' ∧ restart r = again := by simpa using heq
  rw [Ram.mqSend, hr.mqAvail_eq] at hsend
  rw [hr.mqAvail_eq] at hfits
  rw [Mqueue.serve, Mqueue.mqSend]
  split at hsend
  · next hunwritable =>
      obtain ⟨rfl, rfl, rfl⟩ := hsend
      exact ⟨t, by rw [if_pos hunwritable]; rfl, hr, hkept⟩
  next hunwritable =>
  rw [if_neg hunwritable]
  split at hsend
  · next hsize =>
      obtain ⟨rfl, rfl, rfl⟩ := hsend
      exact ⟨t, by rw [if_pos hsize]; rfl, hr, hkept⟩
  next hsize =>
  rw [if_neg hsize]
  split at hsend
  · next hfull =>
      obtain ⟨rfl, rfl, rfl⟩ := hsend
      exact ⟨t, by rw [if_pos hfull]; rfl, hr, hkept⟩
  next hfull =>
  rw [if_neg hfull]
  obtain ⟨L, h, idx, hs⟩ := hkept
  have hcnt : t.cnt ≠ t.size := fun heq => hfull (by
    rw [Mqueue.mqAvail, heq]
    exact Nat.le_of_eq (congrArg BitVec.toNat (BitVec.sub_self _)))
  obtain ⟨t', L', idx', hin, -, hs'⟩ := hs.mqIn hcnt msgPtr msgLen p
  have hr' := hr.mqIn hp (hfits (Bool.eq_false_iff.mpr hunwritable) hsize hfull) hin
  simp only [Option.bind_eq_bind, Option.bind_eq_some_iff] at hsend
  obtain ⟨k₂, hwake, heq⟩ := hsend
  obtain ⟨rfl, rfl, rfl⟩ : k₂ = k₁ ∧ m.mqIn mq msgPtr msgLen p = m₁ ∧ .ok () = r := by
    simpa using heq
  exact ⟨t', by simp only [hin, hwake, Option.bind_eq_bind, Option.bind_some]; rfl, hr',
    L', _, idx', hs'⟩

end Represents

section Allocate
variable {attr : MqAttr} {mq buf : Word} {m m' : Ram} {t : Cells (MqList ⊕ Nat)} {n : Nat}
  {N : Set (MqList ⊕ Nat)}

theorem initHeads_mirrors (hp : Placed attr mq buf) (hN : N ⊆ nodesBelow attr.maxmsg.toNat)
    (h : Mirrors m t (nodeAt attr mq buf) N) (ps : List MqPrio) :
    Mirrors (ps.foldl (fun m i => initListHead m (headAt mq (.used i))) m)
        (ps.foldl (fun s i => initListHead s (Sum.inl (MqList.used i))) t) (nodeAt attr mq buf)
        {x | x ∈ N ∨ ∃ p ∈ ps, x = .inl (.used p)} ∧
      Ram.sizes mq (ps.foldl (fun m i => initListHead m (headAt mq (.used i))) m) =
        Ram.sizes mq m := by
  induction ps generalizing m t N with
  | nil => exact ⟨by simpa using h, rfl⟩
  | cons p ps ih =>
      obtain ⟨hhead, hkeep⟩ := initListHead_mirrors hp.nodes_apart hN hp.beside h
        (head_mem _ (.used p))
      obtain ⟨hrest, hkeep'⟩ := ih (Set.insert_subset (head_mem _ _) hN) hhead
      have hset : {x | x ∈ insert (.inl (.used p)) N ∨ ∃ p' ∈ ps, x = .inl (.used p')} =
          {x : MqList ⊕ Nat | x ∈ N ∨ ∃ p' ∈ p :: ps, x = .inl (.used p')} := by
        ext x
        simp only [Set.mem_insert_iff, Set.mem_ofPred_eq, List.mem_cons, exists_eq_or_imp]
        tauto
      exact ⟨hset ▸ hrest, hkeep'.trans hkeep⟩

theorem initLists_mirrors (hp : Placed attr mq buf) (m : Ram) (t : Cells (MqList ⊕ Nat)) :
    Mirrors (m.initLists mq) (Mqueue.initLists t) (nodeAt attr mq buf) (nodesBelow 0) ∧
      Ram.sizes mq (m.initLists mq) = Ram.sizes mq m := by
  have hnone : Mirrors m t (nodeAt attr mq buf) ∅ :=
    ⟨fun _ h => h.elim, fun _ h => h.elim, fun _ h => h.elim, fun _ h => h.elim⟩
  obtain ⟨hfree, hkeep⟩ := initListHead_mirrors hp.nodes_apart (Set.empty_subset _) hp.beside hnone
    (head_mem _ .free)
  obtain ⟨hall, hkeep'⟩ := initHeads_mirrors hp
    (Set.insert_subset (head_mem _ .free) (Set.empty_subset _)) hfree
    (List.finRange (mqPrioMax + 1))
  have hset : {x | x ∈ insert (.inl .free) (∅ : Set (MqList ⊕ Nat)) ∨
      ∃ p ∈ List.finRange (mqPrioMax + 1), x = .inl (.used p)} = nodesBelow 0 := by
    ext x
    cases x with
    | inl l =>
        cases l with
        | free => simp [nodesBelow]
        | used p => simp [nodesBelow]
    | inr i => simp [nodesBelow]
  exact ⟨hset ▸ hall, hkeep'.trans hkeep⟩

theorem linkElements_mirrors (hp : Placed attr mq buf)
    (h : Mirrors m t (nodeAt attr mq buf) (nodesBelow 0)) (hn : n ≤ attr.maxmsg.toNat) :
    Mirrors (m.linkElements attr mq buf n) (Mqueue.linkElements t n) (nodeAt attr mq buf)
        (nodesBelow n) ∧
      Ram.sizes mq (m.linkElements attr mq buf n) = Ram.sizes mq m := by
  induction n with
  | zero => exact ⟨h, rfl⟩
  | succ n ih =>
      obtain ⟨hlinks, hkeep⟩ := ih (Nat.le_of_succ_le hn)
      have hsub : nodesBelow n ⊆ nodesBelow attr.maxmsg.toNat := fun x hx i hi =>
        (hx i hi).trans (Nat.lt_of_succ_le hn)
      have hnew : (.inr n : MqList ⊕ Nat) ∈ nodesBelow attr.maxmsg.toNat := fun i hi =>
        Sum.inr.inj hi ▸ Nat.lt_of_succ_le hn
      obtain ⟨hadd, hkeep'⟩ := listAdd_mirrors hp.nodes_apart hsub hp.beside hlinks hnew
        (head_mem n .free)
      have hset : insert (.inr n) (nodesBelow n) = nodesBelow (n + 1) := by
        ext x
        cases x with
        | inl l => simp [nodesBelow]
        | inr i =>
            simp only [nodesBelow, Set.mem_insert_iff, Sum.inr.injEq, Set.mem_ofPred_eq,
              forall_eq']
            omega
      rw [Ram.linkElements, Mqueue.linkElements, List.range_succ, List.foldl_append,
        List.foldl_append]
      exact ⟨hset ▸ hadd, hkeep'.trans hkeep⟩

theorem represents_mqAllocate {m₀ : Ram} (hp : Placed attr mq buf)
    (halloc : Ram.mqAllocate m₀ (some mq) (some buf) attr = some (some (m, mq))) :
    ∃ t, Represents attr mq buf m t ∧ Represents.Kept t ∧ t.cnt = 0#32 := by
  obtain ⟨rfl, -⟩ := Prod.mk.inj (Option.some.inj (Option.some.inj halloc))
  obtain ⟨hlists, hkeep⟩ := initLists_mirrors hp
    (((m₀.memset mq 0#8 mqueueSize).store (sizeAt mq) attr.maxmsg).store (bufAt mq) buf) ⟨id, id⟩
  obtain ⟨hlinks, hkeep'⟩ := linkElements_mirrors hp hlists (Nat.le_refl _)
  have halloc : mqAllocate (some mq) (some buf) ⟨id, id⟩ (fun _ => ⟨0#32, fun _ => 0#8⟩) attr =
    some (some _) := rfl
  obtain ⟨-, L, hs⟩ := simulates_mqAllocate halloc
  have hcleared : (m₀.memset mq 0#8 mqueueSize).load (cntAt mq) = 0#32 := by
    have hinside : ∀ a, InRange (cntAt mq) 4 a → InRange mq mqueueSize a := by
      intro a ha
      have hcnt := (Placed.inField_iff (k := 40) (by decide)).mp ha
      rw [InRange, mqueueSize]
      omega
    exact (Ram.load_congr fun a ha => if_pos (hinside a ha)).trans (Ram.load_zero _)
  refine ⟨_, ⟨(hkeep'.trans hkeep).trans (Prod.ext ?_ ?_), rfl, hlinks⟩, ⟨L, _, _, hs⟩, rfl⟩
  · have hbuf : ∀ a, InRange (sizeAt mq) 4 a → ¬ InRange (bufAt mq) 4 a := fun a =>
      Placed.fields_apart (k := 36) (j := 32) (by decide) (by decide) (by decide)
    exact (Ram.load_store hbuf).trans (Ram.load_store_self ..)
  · have hbuf : ∀ a, InRange (cntAt mq) 4 a → ¬ InRange (bufAt mq) 4 a := fun a =>
      Placed.fields_apart (k := 40) (j := 32) (by decide) (by decide) (by decide)
    have hsize : ∀ a, InRange (cntAt mq) 4 a → ¬ InRange (sizeAt mq) 4 a := fun a =>
      Placed.fields_apart (k := 40) (j := 36) (by decide) (by decide) (by decide)
    exact ((Ram.load_store hbuf).trans (Ram.load_store hsize)).trans hcleared

end Allocate

namespace MqSys

/-- A message that is stored now has room in its element. -/
def MessageOk (attr : MqAttr) (mq : Word) (s : MqSys Ram) (e : MqEvent) : Prop :=
  match s.attempted e with
  | some (.send desc _ msgLen _) =>
      unwritable desc = false → ¬ desc.msgsize < msgLen → ¬ s.mq.mqAvail mq ≤ 0#32 →
        mqueueDataSize.toNat + msgLen.toNat ≤ (mqElementSize attr).toNat
  | _ => True

instance decidableMessageOk (attr : MqAttr) (mq : Word) (s : MqSys Ram) (e : MqEvent) :
    Decidable (MessageOk attr mq s e) := by
  unfold MessageOk
  split <;> infer_instance

/-- A new queue at `mq` that nobody waits for. -/
structure Started (attr : MqAttr) (mq buf : Word) (q : Nat) (s : MqSys Ram) : Prop where
  idle : s.Idle q
  placed : Placed attr mq buf
  fresh : ∃ m, Ram.mqAllocate m (some mq) (some buf) attr = some (some (s.mq, mq))

def around {Q Q' : Type} (s : MqSys Q) (mq : Q') : MqSys Q' := ⟨s.kernel, mq, s.calls⟩

/-- The memory is that of a queue to which no wake-up was lost. -/
def Keeps (attr : MqAttr) (mq buf : Word) (q : Nat) (s : MqSys Ram) : Prop :=
  ∃ t, Represents attr mq buf s.mq t ∧ Represents.Kept t ∧ ∃ L, Sound q (s.around t) L

section Runs
variable {attr : MqAttr} {mq buf : Word} {q : Nat} {s s' : MqSys Ram} {t : Mqueue} {e : MqEvent}
  {c : MqCall}

theorem attempt_represents (hp : Placed attr mq buf) (hr : Represents attr mq buf s.mq t)
    (hkept : Represents.Kept t) (he : s.attempted e = some c) (hok : MessageOk attr mq s e)
    (h : s.attempt (Ram.serve mq q) c = some s') :
    ∃ t', (s.around t).attempt (Mqueue.serve q) c = some (s'.around t') ∧
      Represents attr mq buf s'.mq t' ∧ Represents.Kept t' := by
  obtain ⟨⟨k, m, again⟩, hserve, rfl⟩ := Option.map_eq_some_iff.mp h
  have hsame : ∃ t', Mqueue.serve q s.kernel t c = some (k, t', again) ∧
      Represents attr mq buf m t' ∧ Represents.Kept t' := by
    cases c with
    | send desc msgPtr msgLen p =>
        rw [MessageOk, he] at hok
        exact hr.send hp hkept hok hserve
    | receive desc msgLen msgPrio => exact hr.receive hp hkept hserve
  obtain ⟨t', hserve', hr', hkept'⟩ := hsame
  exact ⟨t', Option.map_eq_some_iff.mpr ⟨_, hserve', rfl⟩, hr', hkept'⟩

theorem step_represents (hp : Placed attr mq buf) (hr : Represents attr mq buf s.mq t)
    (hkept : Represents.Kept t) (hok : MessageOk attr mq s e)
    (h : s.step (Ram.serve mq q) e = some s') :
    ∃ t', (s.around t).step (Mqueue.serve q) e = some (s'.around t') ∧
      Represents attr mq buf s'.mq t' ∧ Represents.Kept t' := by
  cases e with
  | call c =>
      obtain ⟨hst, h⟩ := Option.ite_none_right_eq_some.mp h
      obtain ⟨t', ht', hkept'⟩ := attempt_represents hp hr hkept rfl hok h
      exact ⟨t', Option.ite_none_right_eq_some.mpr ⟨hst, ht'⟩, hkept'⟩
  | retry =>
      obtain ⟨hst, h⟩ := Option.ite_none_right_eq_some.mp h
      obtain ⟨c, hc, h⟩ := Option.bind_eq_some_iff.mp h
      obtain ⟨t', ht', hkept'⟩ := attempt_represents (e := .retry) hp hr hkept hc hok h
      exact ⟨t', Option.ite_none_right_eq_some.mpr
        ⟨hst, Option.bind_eq_some_iff.mpr ⟨c, hc, ht'⟩⟩, hkept'⟩
  | background b =>
      obtain ⟨k, hk, rfl⟩ := Option.map_eq_some_iff.mp h
      exact ⟨t, Option.map_eq_some_iff.mpr ⟨k, hk, rfl⟩, hr, hkept⟩

theorem Keeps.step (hp : Placed attr mq buf) (hs : Keeps attr mq buf q s)
    (hok : MessageOk attr mq s e) (h : s.step (Ram.serve mq q) e = some s') :
    Keeps attr mq buf q s' := by
  obtain ⟨t, hr, hkept, L, hsound⟩ := hs
  obtain ⟨t', ht', hr', hkept'⟩ := step_represents hp hr hkept hok h
  exact ⟨t', hr', hkept', hsound.step ht'⟩

theorem Started.keeps (h : Started attr mq buf q s) : Keeps attr mq buf q s := by
  obtain ⟨m, hm⟩ := h.fresh
  obtain ⟨t, hr, hkept, hcnt⟩ := represents_mqAllocate h.placed hm
  exact ⟨t, hr, hkept, Sound.of_idle ⟨h.idle.settled, h.idle.empty, h.idle.outside⟩ hcnt⟩

theorem Keeps.wakeupsKept (hs : Keeps attr mq buf q s) : s.WakeupsKept (Ram.room mq) q := by
  obtain ⟨t, hr, -, L, hsound⟩ := hs
  intro d hne
  rw [hr.room_eq]
  exact hsound.wakeupsKept d hne

/-- As long as every message that is stored has room in its element, no wake-up of a message queue
is lost. -/
theorem wakeupsKept_of_messageOk {es : List MqEvent} (hstart : Started attr mq buf q s)
    (hok : Runs.AllOk (MessageOk attr mq) (step (Ram.serve mq q)) s es)
    (hrun : Runs.exec (step (Ram.serve mq q)) s es = some s') : s'.WakeupsKept (Ram.room mq) q :=
  (Runs.exec_invariant (fun _ _ _ hs he h => hs.step hstart.placed he h) hstart.keeps hok
    hrun).wakeupsKept

def creator : MqAttr := ⟨oCreat ||| oRdwr, 3#32, 4#32⟩

def duplex : MqAttr := ⟨oRdwr, 3#32, 4#32⟩

def blank : Ram := fun _ => 0#8

/-- A queue of `creator` at 256 with its elements at 512. -/
def queueOn (k : Kernel) : MqSys Ram where
  kernel := k
  mq := ((((blank.memset 256#32 0#8 mqueueSize).store (sizeAt 256#32) 3#32).store (bufAt 256#32)
    512#32).initLists 256#32).linkElements creator 256#32 512#32 3
  calls _ := none

theorem queueOn_started {k : Kernel} (hk : k.Settled)
    (hempty : ∀ d, listEmpty k.links (.inl (.wait (waitList 0 d))) = true) :
    Started creator 256#32 512#32 0 (queueOn k) := by
  refine ⟨⟨hk, hempty, fun _ => rfl⟩, ⟨by decide, fun a ha hb => ?_⟩, blank, rfl⟩
  have hsize : (mqBufSize creator).toNat = 48 := by decide
  rw [InRange, mqueueSize] at ha
  rw [InRange, hsize] at hb
  bv_omega

/-- Threads 5 and 4 wait for a message, thread 6 sends one, thread 5 gets the CPU and takes it
while thread 4 waits on. -/
def overtakenRun : List MqEvent :=
  [.call (.receive duplex 4#32 true), .background .schedule,
    .call (.receive duplex 4#32 true), .background .schedule,
    .call (.send duplex (fun _ => 7#8) 4#32 0), .background .schedule, .retry]

theorem wakeupsKept_of_messageOk_at_overtaken :
    Started creator 256#32 512#32 0 (queueOn Kernel.crowdKernel) ∧
      ∃ s, Runs.exec (step (Ram.serve 256#32 0)) (queueOn Kernel.crowdKernel) overtakenRun = some s ∧
        s.kernel.members (.wait (.mqueueRead 0)) ≠ [] ∧ s.WakeupsKept (Ram.room 256#32) 0 := by
  have hstart := queueOn_started Kernel.crowdKernel_settled fun d => by
    cases d <;> exact Kernel.crowdKernel_queue rfl (by decide)
  have hrun : (Runs.exec (step (Ram.serve 256#32 0)) (queueOn Kernel.crowdKernel) overtakenRun).map
      (fun s => s.kernel.members (.wait (.mqueueRead 0))) = some [4] := by decide +kernel
  have hok : Runs.AllOk (MessageOk creator 256#32) (step (Ram.serve 256#32 0))
      (queueOn Kernel.crowdKernel) overtakenRun := by decide +kernel
  obtain ⟨s, hs, hmembers⟩ := Option.map_eq_some_iff.mp hrun
  exact ⟨hstart, s, hs, by simp [hmembers], wakeupsKept_of_messageOk hstart hok hs⟩

/-- A descriptor of its own, with longer messages. -/
def wide : MqAttr := ⟨oRdwr, 3#32, 8#32⟩

/-- Eight bytes, of which the last four are the address in front of `cnt`. -/
def forged (i : Nat) : Byte := (sizeAt 256#32).extractLsb' (8 * (i - 4)) 8

/-- Thread 5 sends eight bytes to an element for four and takes them out again. It waits for a
message like thread 4, and thread 6 sends one. -/
def forgedRun : List MqEvent :=
  [.call (.send wide forged 8#32 0), .call (.receive wide 8#32 true),
    .call (.receive duplex 4#32 true), .background .schedule,
    .call (.receive duplex 4#32 true), .background .schedule,
    .call (.send duplex (fun _ => 7#8) 4#32 0)]

/-- The forged link makes `list_move` write the address of the free list over `cnt`. One thread is
woken for 300 messages, and thread 4 waits on. -/
theorem wakeupsKept_not_forged :
    Started creator 256#32 512#32 0 (queueOn Kernel.crowdKernel) ∧
      ∃ s, Runs.exec (step (Ram.serve 256#32 0)) (queueOn Kernel.crowdKernel) forgedRun = some s ∧
        ¬ s.WakeupsKept (Ram.room 256#32) 0 := by
  have hstart := queueOn_started Kernel.crowdKernel_settled fun d => by
    cases d <;> exact Kernel.crowdKernel_queue rfl (by decide)
  have hrun : (Runs.exec (step (Ram.serve 256#32 0)) (queueOn Kernel.crowdKernel) forgedRun).map
      (fun s => (s.kernel.members (.wait (.mqueueRead 0)), Ram.room 256#32 s.mq .read,
        (s.wokenFrom .read [4]).card)) = some ([4], 300, 1) := by decide +kernel
  obtain ⟨s, hs, heq⟩ := Option.map_eq_some_iff.mp hrun
  obtain ⟨hmembers, hroom, hwoken⟩ := by simpa using heq
  refine ⟨hstart, s, hs, fun h => ?_⟩
  have hkept := h .read
  change s.kernel.members (.wait (.mqueueRead 0)) ≠ [] → _ ≤ (s.wokenFrom .read
    (s.kernel.members (.wait (.mqueueRead 0)))).card at hkept
  rw [hmembers, hroom, hwoken] at hkept
  exact absurd (hkept (by decide)) (by decide)

end Runs

end MqSys

end Tenok
