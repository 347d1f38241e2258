import Mathlib.Data.Fintype.Basic
import Mathlib.Tactic.FinCases
import Tenok.Common.Bitops
import Tenok.Kernel.Signals
import Tenok.Lib.ByteMemory

/-!
The frames of `kernel/arch/v7m_entry.S` and `v7m_port.c`, on a memory of words; an address is
the one of a word. An exception saves some of the registers of the thread that it interrupts on
the stack of the thread, as on an ARMv7-M with `STKALIGN`, and the two handlers save the others
below. What `irq_disable` and `irq_enable` push on the main stack, they also pop.
-/
namespace Tenok

theorem neZero_args : NeZero 4 := ⟨by decide⟩

attribute [local instance] neZero_args

@[ext] structure FpRegs where
  s0to15 : Fin 16 → Word
  s16to31 : Fin 16 → Word
  fpscr : Word

/-- The registers of a thread. The floating point registers belong to it once it has used them. -/
@[ext] structure Context where
  r0to3 : Fin 4 → Word
  r4to11 : Fin 8 → Word
  r12 : Word
  lr : Word
  pc : Word
  xpsr : Word
  sp : Nat
  fp : Option FpRegs

/-- `THREAD_PSP`: an exception return to a thread without floating point registers. -/
def threadPsp : Word := 0xFFFFFFFD#32

def initialXpsr : Word := 0x01000000#32

/-- Bit 9 of the saved status register, which says that a word was left out for alignment. -/
def frameAlignBit : Word := 0x200#32

namespace Context

/-- `r7`, in which a system call has its number. -/
def r7 (c : Context) : Word := c.r4to11 3

/-- `EXC_RETURN`, in `lr` while the exception is handled. Its bit 4 is clear if there are floating
point registers. -/
def excReturn (c : Context) : Word :=
  match c.fp with
  | none => threadPsp
  | some _ => 0xFFFFFFED#32

def entrySize (c : Context) : Nat :=
  match c.fp with
  | none => 8
  | some _ => 26

def savedXpsr (c : Context) : Word :=
  (c.xpsr &&& ~~~frameAlignBit) ||| (if c.sp % 2 = 1 then frameAlignBit else 0#32)

/-- `r0` to `r3`, `r12`, `lr`, `pc` and `xpsr`. -/
def entryWords (c : Context) : List Word :=
  List.ofFn c.r0to3 ++ [c.r12, c.lr, c.pc, c.savedXpsr]

/-- `s0` to `s15` and `fpscr`, in front of a reserved word. -/
def entryFpWords (c : Context) : List Word :=
  match c.fp with
  | none => []
  | some f => List.ofFn f.s0to15 ++ [f.fpscr]

/-- `s16` to `s31`. -/
def highFpWords (c : Context) : List Word :=
  match c.fp with
  | none => []
  | some f => List.ofFn f.s16to31

def pushStack (c : Context) (mem : Nat → Word) : Nat × (Nat → Word) :=
  let frameptr := (c.sp - c.entrySize) / 2 * 2
  (frameptr, ByteMemory.write (ByteMemory.write mem frameptr c.entryWords) (frameptr + 8)
    c.entryFpWords)

end Context

def stmdb (r0 : Nat) (regs : List Word) (mem : Nat → Word) : Nat × (Nat → Word) :=
  (r0 - regs.length, ByteMemory.write mem (r0 - regs.length) regs)

/-- What `PendSV_Handler` and `SVC_Handler` save. -/
def saveUserState (c : Context) (mem : Nat → Word) : Nat × (Nat → Word) :=
  let (r0, mem) := c.pushStack mem
  let (r0, mem) := if c.excReturn &&& 0x10#32 = 0#32 then stmdb r0 c.highFpWords mem else (r0, mem)
  let (r0, mem) := stmdb r0 [c.r7] mem
  stmdb r0 (List.ofFn c.r4to11 ++ [c.excReturn]) mem

/-- Exception return with the registers that are not in its frame. -/
def popStack (mem : Nat → Word) (frameptr : Nat) (lr : Word) (r4to11 : Fin 8 → Word)
    (s16to31 : Fin 16 → Word) : Context where
  r0to3 i := mem (frameptr + i)
  r4to11 := r4to11
  r12 := mem (frameptr + 4)
  lr := mem (frameptr + 5)
  pc := mem (frameptr + 6)
  xpsr := mem (frameptr + 7) &&& ~~~frameAlignBit
  sp :=
    let sp := frameptr + if lr &&& 0x10#32 = 0#32 then 26 else 8
    if mem (frameptr + 7) &&& frameAlignBit = 0#32 then sp else sp / 2 * 2 + 1
  fp :=
    if lr &&& 0x10#32 = 0#32 then
      some { s0to15 := fun i => mem (frameptr + 8 + i), s16to31, fpscr := mem (frameptr + 24) }
    else none

/-- The thread that `jump_to_thread` jumps to. -/
def loadUserState (mem : Nat → Word) (r0 : Nat) : Context :=
  let r4to11 (i : Fin 8) := mem (r0 + i)
  let lr := mem (r0 + 8)
  let r4to11 := Function.update r4to11 3 (mem (r0 + 9))
  let psp := if lr &&& 0x10#32 = 0#32 then r0 + 10 + 16 else r0 + 10
  popStack mem psp lr r4to11 fun i => mem (r0 + 10 + i)

def stackInit (stackTop : Nat) (func returnHandler : Word) (args : Fin 4 → Word)
    (mem : Nat → Word) : Nat × (Nat → Word) :=
  let sp := stackTop - 18
  let mem := ByteMemory.write mem sp (List.replicate 18 0#32)
  let mem := Function.update mem (sp + 17) initialXpsr
  let mem := Function.update mem (sp + 16) (func &&& 0xfffffffe#32)
  let mem := Function.update mem (sp + 15) returnHandler
  let mem := Function.update mem (sp + 13) (args 3)
  let mem := Function.update mem (sp + 12) (args 2)
  let mem := Function.update mem (sp + 11) (args 1)
  let mem := Function.update mem (sp + 10) (args 0)
  (sp, Function.update mem (sp + 8) threadPsp)

/-- Both `struct context` and `struct context_fpu` have `_r7` as their tenth word. -/
def getSyscallNum (mem : Nat → Word) (sp : Nat) : Word :=
  if mem (sp + 8) &&& 0x10#32 ≠ 0#32 then mem (sp + 9) else mem (sp + 9)

def getSyscallArgs (mem : Nat → Word) (sp : Nat) (i : Fin 4) : Nat :=
  if mem (sp + 8) &&& 0x10#32 ≠ 0#32 then sp + 10 + i else sp + 26 + i

namespace Context
variable {c : Context} {mem mem' : Nat → Word} {a x : Nat}

/-- The words from the saved frame up to the stack pointer. -/
def frameSize (c : Context) : Nat := 10 + c.highFpWords.length + c.entrySize + c.sp % 2

/-- Where the registers are saved. -/
def frameTop (c : Context) : Nat := c.sp - c.frameSize

/-- A status register does not have the bit that the frame has. -/
def Plain (c : Context) : Prop := c.xpsr &&& frameAlignBit = 0#32

instance (c : Context) : Decidable c.Plain := inferInstanceAs (Decidable (_ = _))

/-- The registers with which a function starts that is staged on a stack. -/
def initial (stackTop : Nat) (func returnHandler : Word) (args : Fin 4 → Word) : Context where
  r0to3 := args
  r4to11 _ := 0#32
  r12 := 0#32
  lr := returnHandler
  pc := func &&& 0xfffffffe#32
  xpsr := initialXpsr
  sp := stackTop
  fp := none

/-- The registers when a system call has put its result into `r0`. -/
def setR0 (c : Context) (v : Word) : Context := { c with r0to3 := Function.update c.r0to3 0 v }

def frameWords (c : Context) : List Word :=
  List.ofFn c.r4to11 ++ ([c.excReturn] ++ ([c.r7] ++ (c.highFpWords ++
    (c.entryWords ++ c.entryFpWords))))

theorem length_entryWords (c : Context) : c.entryWords.length = 8 := by
  simp [entryWords]

theorem excReturn_eq (c : Context) : (c.excReturn &&& 0x10#32 = 0#32) ↔ c.fp.isSome := by
  rw [excReturn]
  cases c.fp with
  | none => decide
  | some f => exact iff_of_true (show (0xFFFFFFED#32 &&& 0x10#32 = 0#32) by decide) rfl

theorem length_highFpWords (c : Context) :
    c.highFpWords.length = if c.fp.isSome then 16 else 0 := by
  rw [highFpWords]
  cases c.fp with
  | none => rfl
  | some f => simp

theorem entrySize_eq (c : Context) : c.entrySize = if c.fp.isSome then 26 else 8 := by
  rw [entrySize]
  cases c.fp <;> rfl

theorem length_entryFpWords (c : Context) :
    c.entryFpWords.length = if c.fp.isSome then 17 else 0 := by
  rw [entryFpWords]
  cases c.fp with
  | none => rfl
  | some f => simp

theorem frameSize_eq (c : Context) :
    c.frameSize = (if c.fp.isSome then 52 else 18) + c.sp % 2 := by
  rw [frameSize, length_highFpWords, entrySize_eq]
  split <;> rfl

theorem length_frameWords (c : Context) : c.frameWords.length ≤ c.frameSize := by
  simp only [frameWords, List.length_append, List.length_ofFn, List.length_singleton,
    length_highFpWords, length_entryWords, length_entryFpWords, frameSize_eq]
  split <;> omega

end Context

open Context

variable {c : Context} {mem mem' : Nat → Word} {a x : Nat}

theorem stmdb_eq {regs : List Word} (h : x = a + regs.length) :
    stmdb x regs mem = (a, ByteMemory.write mem a regs) := by
  subst h
  rw [stmdb, Nat.add_sub_cancel]

theorem pushStack_eq (hroom : c.frameSize ≤ c.sp) :
    c.pushStack mem = (c.frameTop + 10 + c.highFpWords.length,
      ByteMemory.write mem (c.frameTop + 10 + c.highFpWords.length)
        (c.entryWords ++ c.entryFpWords)) := by
  have hframe : (c.sp - c.entrySize) / 2 * 2 = c.frameTop + 10 + c.highFpWords.length := by
    rw [frameTop]
    rw [frameSize_eq] at *
    rw [length_highFpWords, entrySize_eq]
    split at hroom <;> simp only [*, if_true, if_false, Bool.false_eq_true] <;> omega
  have hcomm : c.frameTop + 10 + c.highFpWords.length + c.entryWords.length ≤
      c.frameTop + 10 + c.highFpWords.length + 8 := Nat.le_of_eq (by rw [length_entryWords])
  rw [pushStack, hframe, ByteMemory.write_append, length_entryWords,
    ByteMemory.write_comm (.inr hcomm)]

theorem saveUserState_eq (hroom : c.frameSize ≤ c.sp) :
    saveUserState c mem = (c.frameTop, ByteMemory.write mem c.frameTop c.frameWords) := by
  have hhigh : (if c.excReturn &&& 0x10#32 = 0#32 then
      stmdb (c.pushStack mem).1 c.highFpWords (c.pushStack mem).2 else c.pushStack mem) =
      (c.frameTop + 10, ByteMemory.write mem (c.frameTop + 10)
        (c.highFpWords ++ (c.entryWords ++ c.entryFpWords))) := by
    rw [pushStack_eq hroom, ByteMemory.write_append (l := c.highFpWords)]
    split
    · exact stmdb_eq rfl
    · next hlr =>
        have hnil : c.highFpWords = [] := by
          rw [← List.length_eq_zero_iff, length_highFpWords, if_neg (mt (excReturn_eq c).mpr hlr)]
        rw [hnil, ByteMemory.write_nil, List.length_nil, Nat.add_zero]
  have hr7 (m : Nat → Word) : stmdb (c.frameTop + 10) [c.r7] m =
      (c.frameTop + 9, ByteMemory.write m (c.frameTop + 9) [c.r7]) := stmdb_eq rfl
  have hr4to11 (m : Nat → Word) : stmdb (c.frameTop + 9) (List.ofFn c.r4to11 ++ [c.excReturn]) m =
      (c.frameTop, ByteMemory.write m c.frameTop (List.ofFn c.r4to11 ++ [c.excReturn])) :=
    stmdb_eq (by simp)
  have hwords : c.frameWords = (List.ofFn c.r4to11 ++ [c.excReturn]) ++ ([c.r7] ++
      (c.highFpWords ++ (c.entryWords ++ c.entryFpWords))) := by
    simp only [frameWords, List.append_assoc]
  have hlen : (List.ofFn c.r4to11 ++ [c.excReturn]).length = 9 := by simp
  rw [hwords, ByteMemory.write_append, ByteMemory.write_append (l := [c.r7]), hlen]
  simp only [saveUserState, hhigh, hr7, hr4to11]
  rfl

theorem saveUserState_outside (hroom : c.frameSize ≤ c.sp) (hx : x < c.frameTop ∨ c.sp ≤ x) :
    (saveUserState c mem).2 x = mem x := by
  rw [saveUserState_eq hroom]
  refine ByteMemory.write_outside (hx.imp_right fun hx => ?_)
  have hlen := length_frameWords c
  rw [frameTop]
  omega

namespace Context

theorem savedXpsr_align (c : Context) :
    c.savedXpsr &&& frameAlignBit = if c.sp % 2 = 1 then frameAlignBit else 0#32 := by
  have hclear : c.xpsr &&& ~~~frameAlignBit &&& frameAlignBit = 0#32 := by
    rw [BitVec.and_assoc, show ~~~frameAlignBit &&& frameAlignBit = 0#32 by decide,
      BitVec.and_zero]
  rw [savedXpsr, BitVec.and_or_distrib_right, hclear, BitVec.zero_or]
  split
  · decide
  · decide

theorem savedXpsr_clear (h : c.Plain) : c.savedXpsr &&& ~~~frameAlignBit = c.xpsr := by
  have hall : c.xpsr &&& (frameAlignBit ||| ~~~frameAlignBit) = c.xpsr := by
    rw [show frameAlignBit ||| ~~~frameAlignBit = BitVec.allOnes 32 by decide, BitVec.and_allOnes]
  have hother : c.xpsr &&& ~~~frameAlignBit = c.xpsr := by
    rw [BitVec.and_or_distrib_left, show c.xpsr &&& frameAlignBit = 0#32 from h,
      BitVec.zero_or] at hall
    exact hall
  have hbit : (if c.sp % 2 = 1 then frameAlignBit else 0#32) &&& ~~~frameAlignBit = 0#32 := by
    split
    · decide
    · decide
  rw [savedXpsr, BitVec.and_or_distrib_right, hbit, BitVec.or_zero, hother, hother]

theorem popStack_entry {s16to31 : Fin 16 → Word} (hplain : c.Plain)
    (hsp : a + c.entrySize + c.sp % 2 = c.sp) (hwords : ByteMemory.Holds mem a c.entryWords)
    (hfp : ByteMemory.Holds mem (a + 8) c.entryFpWords)
    (hhigh : ∀ f ∈ c.fp, s16to31 = f.s16to31) :
    popStack mem a c.excReturn c.r4to11 s16to31 = c := by
  rw [entryWords, ByteMemory.holds_append, ByteMemory.holds_ofFn, List.length_ofFn] at hwords
  obtain ⟨hr0to3, hrest⟩ := hwords
  have hr12 : mem (a + 4) = c.r12 := hrest 0 (by simp)
  have hlr : mem (a + 5) = c.lr := hrest 1 (by simp)
  have hpc : mem (a + 6) = c.pc := hrest 2 (by simp)
  have hxpsr : mem (a + 7) = c.savedXpsr := hrest 3 (by simp)
  have hstack : (popStack mem a c.excReturn c.r4to11 s16to31).sp = c.sp := by
    simp only [popStack, hxpsr, savedXpsr_align, excReturn_eq, ← entrySize_eq]
    by_cases hodd : c.sp % 2 = 1
    · rw [if_pos hodd, if_neg (by decide)]
      omega
    · rw [if_neg hodd, if_pos rfl]
      omega
  have hfloat : (popStack mem a c.excReturn c.r4to11 s16to31).fp = c.fp := by
    simp only [popStack, excReturn_eq]
    cases hc : c.fp with
    | none => rfl
    | some f =>
        simp only [entryFpWords, hc] at hfp
        rw [ByteMemory.holds_append, ByteMemory.holds_ofFn, List.length_ofFn,
          ByteMemory.holds_singleton] at hfp
        rw [if_pos Option.isSome_some, Option.some.injEq]
        exact FpRegs.ext (funext hfp.1) (hhigh f hc) hfp.2
  refine Context.ext (funext hr0to3) rfl hr12 hlr hpc ?_ hstack hfloat
  rw [popStack, hxpsr, savedXpsr_clear hplain]

end Context

theorem loadUserState_save (hplain : c.Plain) (hroom : c.frameSize ≤ c.sp) :
    loadUserState (saveUserState c mem).2 c.frameTop = c := by
  have hframe : ByteMemory.Holds (saveUserState c mem).2 c.frameTop c.frameWords := by
    rw [saveUserState_eq hroom]
    exact ByteMemory.holds_write mem c.frameTop c.frameWords
  simp only [frameWords, ByteMemory.holds_append, ByteMemory.holds_singleton,
    ByteMemory.holds_ofFn, List.length_ofFn, List.length_singleton, Nat.add_assoc] at hframe
  obtain ⟨hr4to11, hlr, hr7, hhigh, hwords, hfp⟩ := hframe
  have hr4to11' : Function.update (fun i : Fin 8 => (saveUserState c mem).2 (c.frameTop + i)) 3
      ((saveUserState c mem).2 (c.frameTop + 9)) = c.r4to11 := by
    rw [hr7, funext hr4to11]
    exact Function.update_eq_self 3 c.r4to11
  have hpsp : (if c.excReturn &&& 0x10#32 = 0#32 then c.frameTop + 10 + 16 else c.frameTop + 10) =
      c.frameTop + (8 + (1 + (1 + c.highFpWords.length))) := by
    rw [length_highFpWords]
    simp only [excReturn_eq]
    split <;> rfl
  rw [loadUserState, hlr, hr4to11', hpsp]
  refine popStack_entry hplain ?_ hwords ?_ fun f hf => ?_
  · have hsize : c.frameTop + c.frameSize = c.sp := Nat.sub_add_cancel hroom
    rw [frameSize] at hsize
    omega
  · simpa only [length_entryWords, Nat.add_assoc] using hfp
  · simp only [highFpWords, Option.mem_def.mp hf] at hhigh
    exact funext (ByteMemory.holds_ofFn.mp hhigh)

theorem frameTop_add (hroom : c.frameSize ≤ c.sp) : c.frameTop + c.frameSize = c.sp :=
  Nat.sub_add_cancel hroom

theorem loadUserState_sp (mem : Nat → Word) (a : Nat) : a + 18 ≤ (loadUserState mem a).sp := by
  simp only [loadUserState, popStack]
  split <;> split <;> omega

theorem loadUserState_plain (mem : Nat → Word) (a : Nat) : (loadUserState mem a).Plain := by
  rw [Context.Plain]
  simp only [loadUserState, popStack]
  rw [BitVec.and_assoc, show ~~~frameAlignBit &&& frameAlignBit = 0#32 by decide, BitVec.and_zero]

theorem loadUserState_congr (h : ∀ x, a ≤ x → x < (loadUserState mem a).sp → mem' x = mem x) :
    loadUserState mem' a = loadUserState mem a := by
  have hsp := loadUserState_sp mem a
  have hlr : mem' (a + 8) = mem (a + 8) := h _ (Nat.le_add_right a 8) (by omega)
  by_cases hfp : mem (a + 8) &&& 0x10#32 = 0#32
  · have hbound : a + 52 ≤ (loadUserState mem a).sp := by
      simp only [loadUserState, popStack, if_pos hfp]
      split <;> omega
    have hword (i : Nat) (hi : i < 52) : mem' (a + i) = mem (a + i) :=
      h _ (Nat.le_add_right a i) (by omega)
    simp only [loadUserState, popStack, hlr, if_pos hfp]
    simp (disch := omega) only [Nat.add_assoc, hword]
  · have hword (i : Nat) (hi : i < 18) : mem' (a + i) = mem (a + i) :=
      h _ (Nat.le_add_right a i) (by omega)
    simp only [loadUserState, popStack, hlr, if_neg hfp]
    simp (disch := omega) only [Nat.add_assoc, hword]

theorem stackInit_word {func returnHandler : Word} {args : Fin 4 → Word} {sp i : Nat}
    (hi : i < 18) : (stackInit (sp + 18) func returnHandler args mem).2 (sp + i) =
      if i = 8 then threadPsp else if i = 10 then args 0 else if i = 11 then args 1
      else if i = 12 then args 2 else if i = 13 then args 3 else if i = 15 then returnHandler
      else if i = 16 then func &&& 0xfffffffe#32 else if i = 17 then initialXpsr else 0#32 := by
  have hzero : ByteMemory.write mem sp (List.replicate 18 0#32) (sp + i) = 0#32 := by
    rw [ByteMemory.write_inside (by rwa [List.length_replicate]), List.getElem_replicate]
  simp only [stackInit, Nat.add_sub_cancel, Function.update_apply, Nat.add_left_cancel_iff, hzero]

/-- A staged function starts with its arguments, and with the whole frame off the stack. -/
theorem loadUserState_stackInit {func returnHandler : Word} {args : Fin 4 → Word}
    (hroom : 18 ≤ a) :
    loadUserState (stackInit a func returnHandler args mem).2 (a - 18) =
      Context.initial a func returnHandler args := by
  obtain ⟨sp, rfl⟩ : ∃ sp, a = sp + 18 := ⟨a - 18, by omega⟩
  rw [Nat.add_sub_cancel]
  have hword {i : Nat} (hi : i < 18) :
      (stackInit (sp + 18) func returnHandler args mem).2 (sp + i) = _ := stackInit_word hi
  generalize hmem : (stackInit (sp + 18) func returnHandler args mem).2 = m at hword
  have hexc : m (sp + 8) = threadPsp := hword (by decide)
  have hxpsr : m (sp + 17) = initialXpsr := hword (by decide)
  have hzero {i : Nat} (hi : i < 8) : m (sp + i) = 0#32 := by
    rw [hword (Nat.lt_of_lt_of_le hi (by decide))]
    simp (disch := omega) only [if_neg]
  have hlr : ¬ (threadPsp &&& 0x10#32 = 0#32) := by decide
  have haligned : initialXpsr &&& frameAlignBit = 0#32 := by decide
  have hclear : initialXpsr &&& ~~~frameAlignBit = initialXpsr := by decide
  simp only [loadUserState, popStack, hexc, hxpsr, if_neg hlr, haligned, if_true, hclear,
    Nat.add_assoc, Nat.reduceAdd]
  refine Context.ext (funext fun i => ?_) (funext fun i => ?_) (hword (by decide))
    (hword (by decide)) (hword (by decide)) rfl rfl rfl
  · fin_cases i
    · exact hword (by decide)
    · exact hword (by decide)
    · exact hword (by decide)
    · exact hword (by decide)
  · rw [show m (sp + 9) = 0#32 from hword (by decide)]
    change Function.update (fun i : Fin 8 => m (sp + i)) 3 0#32 i = 0#32
    rw [Function.update_apply, hzero i.isLt, ite_self]

theorem stackInit_outside {func returnHandler : Word} {args : Fin 4 → Word}
    (hroom : 18 ≤ a) (hx : x < a - 18 ∨ a ≤ x) :
    (stackInit a func returnHandler args mem).2 x = mem x := by
  simp only [stackInit]
  simp (disch := omega) only [Function.update_of_ne]
  refine ByteMemory.write_outside ?_
  rw [List.length_replicate]
  omega

@[simp] theorem getSyscallNum_eq (mem : Nat → Word) (a : Nat) :
    getSyscallNum mem a = (loadUserState mem a).r7 := by
  rw [getSyscallNum, ite_self]
  rfl

theorem getSyscallArgs_eq (mem : Nat → Word) (a : Nat) (i : Fin 4) :
    getSyscallArgs mem a i = a + (if mem (a + 8) &&& 0x10#32 = 0#32 then 26 else 10) + i := by
  rw [getSyscallArgs]
  by_cases hlr : mem (a + 8) &&& 0x10#32 = 0#32
  · rw [if_neg (not_not.mpr hlr), if_pos hlr]
  · rw [if_pos hlr, if_neg hlr]

theorem loadUserState_r0to3 (mem : Nat → Word) (a : Nat) (i : Fin 4) :
    (loadUserState mem a).r0to3 i = mem (getSyscallArgs mem a i) := by
  rw [getSyscallArgs_eq]
  simp only [loadUserState, popStack]
  split <;> rfl

theorem getSyscallArgs_add (mem : Nat → Word) (a : Nat) (i : Fin 4) :
    getSyscallArgs mem a 0 + i = getSyscallArgs mem a i := by
  rw [getSyscallArgs_eq, getSyscallArgs_eq, Fin.val_zero, Nat.add_zero]

theorem getSyscallArgs_lt (mem : Nat → Word) (a : Nat) (i : Fin 4) :
    a ≤ getSyscallArgs mem a i ∧ getSyscallArgs mem a i < (loadUserState mem a).sp := by
  have hi := i.isLt
  rw [getSyscallArgs_eq]
  simp only [loadUserState, popStack]
  by_cases hlr : mem (a + 8) &&& 0x10#32 = 0#32
  · simp only [if_pos hlr]
    split <;> omega
  · simp only [if_neg hlr]
    split <;> omega

theorem getSyscallArgs_congr (h : mem' (a + 8) = mem (a + 8)) :
    getSyscallArgs mem' a = getSyscallArgs mem a := by
  funext i
  rw [getSyscallArgs, getSyscallArgs, h]

theorem getSyscallArgs_update (mem : Nat → Word) (a : Nat) (v : Word) :
    getSyscallArgs (Function.update mem (getSyscallArgs mem a 0) v) a = getSyscallArgs mem a := by
  refine getSyscallArgs_congr (Function.update_of_ne ?_ ..)
  rw [getSyscallArgs_eq, Fin.val_zero]
  split <;> omega

theorem loadUserState_update (mem : Nat → Word) (a : Nat) (v : Word) :
    loadUserState (Function.update mem (getSyscallArgs mem a 0) v) a =
      (loadUserState mem a).setR0 v := by
  obtain ⟨m, hm⟩ : ∃ m, m = Function.update mem (getSyscallArgs mem a 0) v := ⟨_, rfl⟩
  have hr0 : m (getSyscallArgs mem a 0) = v := by rw [hm, Function.update_self]
  have hne {i : Nat} (hi : i ≠ if mem (a + 8) &&& 0x10#32 = 0#32 then 26 else 10) :
      m (a + i) = mem (a + i) := by
    rw [hm]
    refine Function.update_of_ne ?_ ..
    rw [getSyscallArgs_eq, Fin.val_zero]
    omega
  have hlr : m (a + 8) = mem (a + 8) := hne (by split <;> decide)
  have hargs (i : Fin 4) : (loadUserState m a).r0to3 i = ((loadUserState mem a).setR0 v).r0to3 i := by
    rw [loadUserState_r0to3, getSyscallArgs_congr hlr]
    change _ = Function.update (loadUserState mem a).r0to3 0 v i
    rw [Function.update_apply]
    by_cases hi : i = 0
    · rw [if_pos hi, hi, hr0]
    · have hpos : (i : Nat) ≠ 0 := fun h => hi (Fin.ext h)
      rw [if_neg hi, loadUserState_r0to3, getSyscallArgs_eq, Nat.add_assoc]
      exact hne (by omega)
  rw [← hm]
  by_cases hfp : mem (a + 8) &&& 0x10#32 = 0#32
  · simp only [if_pos hfp] at hne
    refine Context.ext (funext hargs) ?_ ?_ ?_ ?_ ?_ ?_ ?_ <;>
      simp (disch := omega) only [loadUserState, popStack, Context.setR0, hlr, if_pos hfp,
        Nat.add_assoc, hne]
  · simp only [if_neg hfp] at hne
    refine Context.ext (funext hargs) ?_ ?_ ?_ ?_ ?_ ?_ ?_ <;>
      simp (disch := omega) only [loadUserState, popStack, Context.setR0, hlr, if_neg hfp,
        Nat.add_assoc, hne]

end Tenok
