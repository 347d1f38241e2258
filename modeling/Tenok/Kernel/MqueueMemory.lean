import Tenok.Common.ListImage
import Tenok.Kernel.MqueueOpen
import Tenok.Kernel.MqueueWaits

/-!
A message queue in memory. A message is measured with the descriptor it is sent through, so that it
can be longer than its element. Then it is written over the links of the next element, and
`list_move` follows what the sender wrote there. The wait lists of the queue are lists of the
kernel, and the buffers of the callers are memory of their own.
-/
namespace Tenok
open Ring Mqueue

abbrev Ram := Word → Byte

namespace Ram

/-- A word, the lowest byte first. -/
def load (m : Ram) (a : Word) : Word := m (a + 3#32) ++ m (a + 2#32) ++ m (a + 1#32) ++ m a

def store (m : Ram) (a v : Word) : Ram := fun x =>
  if InRange a 4 x then v.extractLsb' (8 * (x - a).toNat) 8 else m x

section Words
variable {m m' : Ram} {a b v x : Word} {n k : Nat}

theorem add_sub_self (a v : Word) : a + v - a = v := by
  bv_omega

theorem load_congr (h : ∀ x, InRange a 4 x → m' x = m x) : m'.load a = m.load a := by
  have hbyte (i : Nat) (hi : i < 4) : m' (a + BitVec.ofNat 32 i) = m (a + BitVec.ofNat 32 i) := by
    apply h
    rw [InRange, add_sub_self, BitVec.toNat_ofNat]
    omega
  have hzero := hbyte 0 (by decide)
  rw [BitVec.add_zero] at hzero
  rw [load, load, hzero, hbyte 1 (by decide), hbyte 2 (by decide), hbyte 3 (by decide)]

theorem load_store_self (m : Ram) (a v : Word) : (m.store a v).load a = v := by
  have hbyte (i : Nat) (hi : i < 4) :
      m.store a v (a + BitVec.ofNat 32 i) = v.extractLsb' (8 * i) 8 := by
    have hoff : (a + BitVec.ofNat 32 i - a).toNat = i := by
      rw [add_sub_self, BitVec.toNat_ofNat]
      omega
    rw [store, if_pos (by rw [InRange, hoff]; exact hi), hoff]
  have hzero := hbyte 0 (by decide)
  rw [BitVec.add_zero] at hzero
  rw [load, hzero, hbyte 1 (by decide), hbyte 2 (by decide), hbyte 3 (by decide)]
  refine BitVec.eq_of_getLsbD_eq fun i hi => ?_
  simp only [BitVec.getLsbD_append, BitVec.getLsbD_extractLsb']
  grind

theorem load_zero (a : Word) : load (fun _ => 0#8) a = 0#32 :=
  (by decide : 0#8 ++ 0#8 ++ 0#8 ++ 0#8 = 0#32)

theorem store_outside (hx : ¬ InRange a 4 x) : m.store a v x = m x := if_neg hx

theorem load_store (h : ∀ x, InRange b 4 x → ¬ InRange a 4 x) :
    (m.store a v).load b = m.load b :=
  load_congr fun x hx => store_outside (h x hx)

theorem inRange_next (h : InRange a 4 x) : InRange a 8 x := by
  rw [InRange] at h ⊢
  omega

theorem inRange_prev (h : InRange (a + 4#32) 4 x) : InRange a 8 x := by
  rw [InRange] at h ⊢
  bv_omega

theorem inRange_links (h : InRange a 4 x) : ¬ InRange (a + 4#32) 4 x := by
  rw [InRange] at h ⊢
  bv_omega

end Words

/-- A `struct list_head` in memory: `next`, then `prev`. -/
instance linkStore : LinkStore Ram Word where
  next m a := m.load a
  prev m a := m.load (a + 4#32)
  setNext m a v := m.store a v
  setPrev m a v := m.store (a + 4#32) v
  Apart a b := ∀ x, InRange a 8 x → ¬ InRange b 8 x
  apart_ne {a b} h := by
    rintro rfl
    have hself : InRange a 8 a := by simp [InRange]
    exact h a hself hself
  apart_symm h x hb ha := h x ha hb
  next_setNext_self m a v := load_store_self m a v
  prev_setNext_self m a v := load_store fun x hx hx' => inRange_links hx' hx
  next_setPrev_self m a v := load_store fun x hx => inRange_links hx
  prev_setPrev_self m a v := load_store_self m _ v
  next_setNext_apart m _ _ v h := load_store fun x hb ha =>
    h x (inRange_next ha) (inRange_next hb)
  prev_setNext_apart m _ _ v h := load_store fun x hb ha =>
    h x (inRange_next ha) (inRange_prev hb)
  next_setPrev_apart m _ _ v h := load_store fun x hb ha =>
    h x (inRange_prev ha) (inRange_next hb)
  prev_setPrev_apart m _ _ v h := load_store fun x hb ha =>
    h x (inRange_prev ha) (inRange_prev hb)

def memset (m : Ram) (s : Word) (c : Byte) (n : Nat) : Ram := fun a =>
  if InRange s n a then c else m a

end Ram

/-! The fields of `struct mqueue`. -/

def mqueueSize : Nat := 124

def bufAt (mq : Word) : Word := mq + 32#32

def sizeAt (mq : Word) : Word := mq + 36#32

def cntAt (mq : Word) : Word := mq + 40#32

def headOffset : MqList → Nat
  | .free => 44
  | .used prio => 52 + 8 * prio.val

def headAt (mq : Word) (l : MqList) : Word := mq + BitVec.ofNat 32 (headOffset l)

namespace Ram

def initLists (m : Ram) (mq : Word) : Ram :=
  (List.finRange (mqPrioMax + 1)).foldl (fun m i => initListHead m (headAt mq (.used i)))
    (initListHead m (headAt mq .free))

def linkElements (m : Ram) (attr : MqAttr) (mq buf : Word) (size : Nat) : Ram :=
  (List.range size).foldl (fun m i => listAdd m (mqElementAddr attr buf i) (headAt mq .free)) m

/-- `__mq_allocate` where `kmalloc` gives `newMq` for the queue and `buf` for the elements. -/
def mqAllocate (m : Ram) (newMq buf : Option Word) (attr : MqAttr) : Option (Option (Ram × Word)) :=
  match newMq with
  | none => none
  | some mq =>
      let m := m.memset mq 0#8 mqueueSize
      some (buf.map fun buf =>
        let m := m.store (sizeAt mq) attr.maxmsg
        let m := m.store (bufAt mq) buf
        ((m.initLists mq).linkElements attr mq buf attr.maxmsg.toNat, mq))

def mqLen (m : Ram) (mq : Word) : Word := m.load (cntAt mq)

def mqAvail (m : Ram) (mq : Word) : Word := m.load (sizeAt mq) - m.load (cntAt mq)

/-- The messages in the queue, or its free elements. -/
def room (mq : Word) (m : Ram) : PipeSide → Nat
  | .read => (m.mqLen mq).toNat
  | .write => (m.mqAvail mq).toNat

def highestUsed (m : Ram) (mq : Word) : Option MqPrio :=
  (List.finRange (mqPrioMax + 1)).reverse.find? fun p => !listEmpty m (headAt mq (.used p))

/-- `__mq_out`. It reads the size of the element once more when the element is free. -/
def mqOut (m : Ram) (mq : Word) (msgPrio : Bool) : Option (Ram × MqMessage) := do
  let prio ← m.highestUsed mq
  let element := next m (headAt mq (.used prio))
  let data := bytesAt (fun j => m (element + mqueueDataSize + BitVec.ofNat 32 j))
    (m.load (element + 8#32)).toNat
  let m := m.store (cntAt mq) (m.load (cntAt mq) - 1#32)
  let m := listMove m element (headAt mq .free)
  some (m, ⟨data, m.load (element + 8#32), if msgPrio then some prio else none⟩)

/-- `__mq_in`. It takes the first entry of the free list for an element, also where there is none. -/
def mqIn (m : Ram) (mq : Word) (msgPtr : Nat → Byte) (msgLen : Word) (msgPrio : MqPrio) : Ram :=
  let element := next m (headAt mq .free)
  let m : Ram := mqStore m element msgPtr msgLen
  let m := m.store (cntAt mq) (m.load (cntAt mq) + 1#32)
  listMove m element (headAt mq (.used msgPrio))

/-- `__mq_receive` on the queue with number `q`, which lies at `mq`. -/
def mqReceive (k : Kernel) (q : Nat) (m : Ram) (mq : Word) (attr : MqAttr) (msgLen : Word)
    (msgPrio : Bool) : Option (Kernel × Ram × Except Errno MqMessage) :=
  if unreadable attr then some (k, m, .error .ebadf)
  else if msgLen < attr.msgsize then some (k, m, .error .emsgsize)
  else if m.mqLen mq ≤ 0#32 then
    let (k, e) := mqBlock k attr (.mqueueRead q)
    some (k, m, .error e)
  else do
    let (m, msg) ← m.mqOut mq msgPrio
    let k ← k.wakeUp (.wait (.mqueueWrite q))
    some (k, m, .ok msg)

/-- `__mq_send` on the queue with number `q`, which lies at `mq`. -/
def mqSend (k : Kernel) (q : Nat) (m : Ram) (mq : Word) (attr : MqAttr) (msgPtr : Nat → Byte)
    (msgLen : Word) (msgPrio : MqPrio) : Option (Kernel × Ram × Except Errno Unit) :=
  if unwritable attr then some (k, m, .error .ebadf)
  else if attr.msgsize < msgLen then some (k, m, .error .emsgsize)
  else if m.mqAvail mq ≤ 0#32 then
    let (k, e) := mqBlock k attr (.mqueueWrite q)
    some (k, m, .error e)
  else do
    let m := m.mqIn mq msgPtr msgLen msgPrio
    let k ← k.wakeUp (.wait (.mqueueRead q))
    some (k, m, .ok ())

/-- A pass of the loop of `sys_mq_send` or `sys_mq_receive`. -/
def serve (mq : Word) (q : Nat) (k : Kernel) (m : Ram) : MqCall → Option (Kernel × Ram × Bool)
  | .send attr msgPtr msgLen msgPrio =>
      (mqSend k q m mq attr msgPtr msgLen msgPrio).map fun (k, m, r) => (k, m, restart r)
  | .receive attr msgLen msgPrio =>
      (mqReceive k q m mq attr msgLen msgPrio).map fun (k, m, r) => (k, m, restart r)

end Ram

/-- The places of the list heads and of the elements. -/
def nodeAt (attr : MqAttr) (mq buf : Word) : MqList ⊕ Nat → Word
  | .inl l => headAt mq l
  | .inr i => mqElementAddr attr buf i

/-- The heads and the first `size` elements. -/
def nodesBelow (size : Nat) : Set (MqList ⊕ Nat) := {x | ∀ i, x = .inr i → i < size}

/-- `kmalloc` gave two blocks, and the size of the second did not overflow. -/
structure Placed (attr : MqAttr) (mq buf : Word) : Prop where
  laid : LaidOut attr
  apart : ∀ a, InRange mq mqueueSize a → ¬ InRange buf (mqBufSize attr).toNat a

namespace Placed
variable {attr : MqAttr} {mq buf a len : Word} {i j k n : Nat} {l : MqList} {x y : MqList ⊕ Nat}

theorem headOffset_le (l : MqList) : 44 ≤ headOffset l ∧ headOffset l ≤ 92 := by
  cases l with
  | free => exact ⟨by decide, by decide⟩
  | used p =>
      have hp := p.isLt
      simp only [headOffset, mqPrioMax] at *
      omega

theorem inField_iff (hk : k + n ≤ mqueueSize) :
    InRange (mq + BitVec.ofNat 32 k) n a ↔ k ≤ (a - mq).toNat ∧ (a - mq).toNat < k + n := by
  have hoff : (BitVec.ofNat 32 k).toNat = k := by
    rw [BitVec.toNat_ofNat, mqueueSize] at *
    omega
  rw [mqueueSize] at hk
  rw [inRange_add, inRange_iff (by omega), hoff]

theorem fields_apart (hk : k + 4 ≤ mqueueSize) (hj : j + 4 ≤ mqueueSize)
    (h : k + 4 ≤ j ∨ j + 4 ≤ k) (ha : InRange (mq + BitVec.ofNat 32 k) 4 a) :
    ¬ InRange (mq + BitVec.ofNat 32 j) 4 a := by
  rw [inField_iff hk] at ha
  rw [inField_iff hj]
  omega

theorem inElement_iff_offset (hp : Placed attr mq buf) (hi : i < attr.maxmsg.toNat)
    (hk : k + n ≤ roundedElement attr) :
    InRange (mqElementAddr attr buf i + BitVec.ofNat 32 k) n a ↔
      i * roundedElement attr + k ≤ (a - buf).toNat ∧
        (a - buf).toNat < i * roundedElement attr + k + n := by
  obtain ⟨-, hbuf⟩ := hp.laid (Nat.zero_lt_of_lt hi)
  have hle : (i + 1) * roundedElement attr ≤ roundedElement attr * attr.maxmsg.toNat := by
    rw [Nat.mul_comm]
    exact Nat.mul_le_mul_left _ hi
  rw [Nat.succ_mul] at hle
  have hmul : (BitVec.ofNat 32 i * mqElementSize attr).toNat = i * roundedElement attr :=
    toNat_elementOffset (by omega) (hi.trans attr.maxmsg.isLt)
  have hoff : (BitVec.ofNat 32 i * mqElementSize attr + BitVec.ofNat 32 k).toNat =
      i * roundedElement attr + k := by
    rw [BitVec.toNat_add, hmul, BitVec.toNat_ofNat]
    omega
  rw [mqElementAddr, BitVec.add_assoc, inRange_add, inRange_iff (by omega), hoff]

/-- No field of the queue is in an element. -/
theorem field_notMem_element (hp : Placed attr mq buf) (hi : i < attr.maxmsg.toNat)
    (ha : (a - mq).toNat < mqueueSize) :
    ¬ (i * roundedElement attr ≤ (a - buf).toNat ∧
      (a - buf).toNat < i * roundedElement attr + roundedElement attr) := by
  obtain ⟨-, hbuf⟩ := hp.laid (Nat.zero_lt_of_lt hi)
  have hle : (i + 1) * roundedElement attr ≤ roundedElement attr * attr.maxmsg.toNat := by
    rw [Nat.mul_comm]
    exact Nat.mul_le_mul_left _ hi
  rw [Nat.succ_mul] at hle
  rintro ⟨-, hlt⟩
  apply hp.apart a ha
  rw [InRange, toNat_mqBufSize, Nat.mod_eq_of_lt hbuf]
  omega

theorem elements_disjoint {e d : Nat} (hij : i ≠ j) (hi : i * e ≤ d ∧ d < i * e + e) :
    ¬ (j * e ≤ d ∧ d < j * e + e) := by
  rintro ⟨hlow, hhigh⟩
  rcases Nat.lt_or_gt_of_ne hij with h | h
  · have hle := Nat.mul_le_mul_right e (Nat.succ_le_of_lt h)
    rw [Nat.succ_mul] at hle
    omega
  · have hle := Nat.mul_le_mul_right e (Nat.succ_le_of_lt h)
    rw [Nat.succ_mul] at hle
    omega

theorem inHead_iff : InRange (headAt mq l) 8 a ↔
    headOffset l ≤ (a - mq).toNat ∧ (a - mq).toNat < headOffset l + 8 :=
  inField_iff (by have h := headOffset_le l; rw [mqueueSize]; omega)

theorem inLinks_iff (hp : Placed attr mq buf) (hi : i < attr.maxmsg.toNat) :
    InRange (mqElementAddr attr buf i) 8 a ↔
      i * roundedElement attr ≤ (a - buf).toNat ∧ (a - buf).toNat < i * roundedElement attr + 8 := by
  obtain ⟨hheader, -⟩ := hp.laid (Nat.zero_lt_of_lt hi)
  have h := hp.inElement_iff_offset (a := a) (k := 0) (n := 8) hi (by omega)
  rwa [BitVec.add_zero, Nat.add_zero] at h

/-- The bytes of a node are among the fields or in an element. -/
theorem node_cases (hp : Placed attr mq buf) (hx : x ∈ nodesBelow attr.maxmsg.toNat)
    (ha : InRange (nodeAt attr mq buf x) 8 a) :
    (∃ l, x = .inl l ∧ headOffset l ≤ (a - mq).toNat ∧ (a - mq).toNat < headOffset l + 8) ∨
      ∃ i, x = .inr i ∧ i < attr.maxmsg.toNat ∧ i * roundedElement attr ≤ (a - buf).toNat ∧
        (a - buf).toNat < i * roundedElement attr + 8 := by
  cases x with
  | inl l => exact .inl ⟨l, rfl, inHead_iff.mp ha⟩
  | inr i => exact .inr ⟨i, rfl, hx i rfl, (hp.inLinks_iff (hx i rfl)).mp ha⟩

theorem headOffset_apart {l l' : MqList} (h : l ≠ l') :
    headOffset l + 8 ≤ headOffset l' ∨ headOffset l' + 8 ≤ headOffset l := by
  cases l with
  | free =>
      cases l' with
      | free => exact absurd rfl h
      | used p => exact .inl (by simp only [headOffset]; omega)
  | used p =>
      cases l' with
      | free => exact .inr (by simp only [headOffset]; omega)
      | used p' =>
          have hne : p.val ≠ p'.val := fun hp => h (congrArg MqList.used (Fin.ext hp))
          simp only [headOffset]
          omega

theorem nodes_apart (hp : Placed attr mq buf) : ∀ x ∈ nodesBelow attr.maxmsg.toNat,
    ∀ y ∈ nodesBelow attr.maxmsg.toNat, x ≠ y →
      Apart Ram (nodeAt attr mq buf x) (nodeAt attr mq buf y) := by
  intro x hx y hy hxy a hax hay
  have hheader : ∀ {i}, i < attr.maxmsg.toNat → 8 ≤ roundedElement attr := fun hi =>
    Nat.le_trans (by decide) (hp.laid (Nat.zero_lt_of_lt hi)).1
  rcases hp.node_cases hx hax with ⟨l, rfl, hl⟩ | ⟨i, rfl, hi, hlow, hhigh⟩
  · have hle := headOffset_le l
    rcases hp.node_cases hy hay with ⟨l', rfl, hl'⟩ | ⟨j, rfl, hj, hlow, hhigh⟩
    · have hapart := headOffset_apart fun h => hxy (congrArg Sum.inl h)
      omega
    · have h8 := hheader hj
      exact hp.field_notMem_element hj (by rw [mqueueSize]; omega) ⟨hlow, by omega⟩
  · have h8 := hheader hi
    rcases hp.node_cases hy hay with ⟨l', rfl, hl'⟩ | ⟨j, rfl, hj, hlow', hhigh'⟩
    · have hle := headOffset_le l'
      exact hp.field_notMem_element hi (by rw [mqueueSize]; omega) ⟨hlow, by omega⟩
    · exact elements_disjoint (fun h => hxy (congrArg Sum.inr h)) ⟨hlow, by omega⟩
        ⟨hlow', by omega⟩

/-- What is written to a field in front of the list heads changes no links. -/
theorem field_apart (hp : Placed attr mq buf) (hk : k + n ≤ 44)
    (ha : InRange (mq + BitVec.ofNat 32 k) n a) (hx : x ∈ nodesBelow attr.maxmsg.toNat) :
    ¬ InRange (nodeAt attr mq buf x) 8 a := by
  have hk' := (inField_iff (by rw [mqueueSize]; omega)).mp ha
  intro hnode
  rcases hp.node_cases hx hnode with ⟨l, rfl, hl⟩ | ⟨i, rfl, hi, hlow, hhigh⟩
  · have hle := headOffset_le l
    omega
  · have h12 := (hp.laid (Nat.zero_lt_of_lt hi)).1
    exact hp.field_notMem_element hi (by rw [mqueueSize]; omega) ⟨hlow, by omega⟩

/-- A message that fits changes no links. -/
theorem message_apart (hp : Placed attr mq buf) (hi : i < attr.maxmsg.toNat)
    (hk : 8 + n ≤ roundedElement attr) (ha : InRange (mqElementAddr attr buf i + 8#32) n a)
    (hx : x ∈ nodesBelow attr.maxmsg.toNat) : ¬ InRange (nodeAt attr mq buf x) 8 a := by
  have ha' := (hp.inElement_iff_offset hi hk).mp ha
  intro hnode
  rcases hp.node_cases hx hnode with ⟨l, rfl, hl⟩ | ⟨j, rfl, hj, hlow, hhigh⟩
  · have hle := headOffset_le l
    exact hp.field_notMem_element (a := a) hi (by rw [mqueueSize]; omega) ⟨by omega, by omega⟩
  · by_cases hij : i = j
    · subst hij
      omega
    · exact elements_disjoint hij ⟨by omega, by omega⟩ ⟨hlow, by omega⟩

/-- A message that fits changes no field. -/
theorem message_field (hp : Placed attr mq buf) (hi : i < attr.maxmsg.toNat)
    (hk : 8 + n ≤ roundedElement attr) (ha : InRange (mqElementAddr attr buf i + 8#32) n a)
    (hfield : k + j ≤ mqueueSize) : ¬ InRange (mq + BitVec.ofNat 32 k) j a := by
  have ha' := (hp.inElement_iff_offset hi hk).mp ha
  intro h
  have h' := (inField_iff hfield).mp h
  exact hp.field_notMem_element (a := a) hi (by omega) ⟨by omega, by omega⟩

end Placed

def Ram.sizes (mq : Word) (m : Ram) : Word × Word := (m.load (sizeAt mq), m.load (cntAt mq))

section Memory
variable {attr : MqAttr} {mq buf : Word} {m m' : Ram} {a v len : Word} {i n : Nat} {l : MqList}

theorem head_mem (n : Nat) (l : MqList) : (.inl l : MqList ⊕ Nat) ∈ nodesBelow n := fun _ h => by
  cases h

theorem Placed.beside (hp : Placed attr mq buf) :
    Beside (Ram.sizes mq) (nodeAt attr mq buf) (nodesBelow attr.maxmsg.toNat) := by
  have hload (m : Ram) (a v : Word) (x : MqList ⊕ Nat) (hx : x ∈ nodesBelow attr.maxmsg.toNat)
      (ha : ∀ b, InRange a 4 b → InRange (nodeAt attr mq buf x) 8 b) :
      Ram.sizes mq (m.store a v) = Ram.sizes mq m :=
    Prod.ext (Ram.load_store fun b hb hb' => hp.field_apart (k := 36) (by decide) hb hx (ha b hb'))
      (Ram.load_store fun b hb hb' => hp.field_apart (k := 40) (by decide) hb hx (ha b hb'))
  exact ⟨fun m x hx v => hload m _ v x hx fun b => Ram.inRange_next,
    fun m x hx v => hload m _ v x hx fun b => Ram.inRange_prev⟩

theorem mirrors_congr {t : Cells (MqList ⊕ Nat)} {N : Set (MqList ⊕ Nat)}
    (h : Mirrors m t (nodeAt attr mq buf) N)
    (hsame : ∀ x ∈ N, ∀ a, InRange (nodeAt attr mq buf x) 8 a → m' a = m a) :
    Mirrors m' t (nodeAt attr mq buf) N :=
  h.congr (fun x hx => Ram.load_congr fun a ha => hsame x hx a (Ram.inRange_next ha))
    fun x hx => Ram.load_congr fun a ha => hsame x hx a (Ram.inRange_prev ha)

theorem mqStore_outside {e : Word} {msgPtr : Nat → Byte} (hlen : 12 + len.toNat < 2 ^ 32)
    (ha : ¬ InRange (e + 8#32) (4 + len.toNat) a) : mqStore m e msgPtr len a = m a := by
  have hsize : ¬ InRange (e + 8#32) 4 a := fun h => ha (by rw [InRange] at h ⊢; omega)
  have hdata : ¬ InRange (e + mqueueDataSize) len.toNat a := by
    intro h
    apply ha
    rw [InRange, mqueueDataSize] at h
    rw [InRange]
    bv_omega
  rw [mqStore, if_neg hsize, if_neg hdata]

end Memory

end Tenok
