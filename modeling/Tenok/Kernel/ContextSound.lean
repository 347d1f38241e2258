import Tenok.Kernel.ContextSwitch

/-!
The kernel loop gives every thread a processor of its own. The registers of all threads, as they
are on the stacks, make up a machine in which they do not need to be saved, and what is on the
stacks above the stack pointers is not changed but by the threads.
-/
namespace Tenok

namespace SwitchThread

def stackEnd (t : SwitchThread) : Nat := t.stack + t.stackSize

/-- The end of what a system call can use is what it was called from, or else what the signal handler
has interrupted. -/
def outer (t : SwitchThread) : Nat :=
  if t.stackTopPreserved = 0 then t.stackEnd else t.stackTopPreserved

def limit (t : SwitchThread) : Nat := if t.syscallMode then t.syscallStackTop else t.outer

/-- The frames below which the thread executes. -/
def Keeps (t : SwitchThread) (mem : Nat → Word) (x : Nat) : Prop :=
  (t.syscallMode = true ∧ t.syscallStackTop ≤ x ∧ x < (loadUserState mem t.syscallStackTop).sp) ∨
  (t.stackTopPreserved ≠ 0 ∧ t.stackTopPreserved ≤ x ∧
    x < (loadUserState mem t.stackTopPreserved).sp)

/-- The frames of a thread are on its stack, in order, and below them its stack pointer. -/
structure Framed (t : SwitchThread) (mem : Nat → Word) (sp : Nat) : Prop where
  stack_pos : 0 < t.stack
  below : sp ≤ t.limit
  caller : t.syscallMode = true → t.stack ≤ t.syscallStackTop ∧
    (loadUserState mem t.syscallStackTop).sp ≤ t.outer ∧
    t.syscallArgs = getSyscallArgs mem t.syscallStackTop
  interrupted : t.stackTopPreserved ≠ 0 → t.stack ≤ t.stackTopPreserved ∧
    (loadUserState mem t.stackTopPreserved).sp ≤ t.stackEnd
  privilege : t.privilege =
    if t.syscallMode = true ∨ t.kernelThread = true then .kernelThread else .userThread

def virtual (t : SwitchThread) (mem : Nat → Word) (regs : Context) : VirtualThread where
  current := ⟨regs, t.stackTop⟩
  caller :=
    if t.syscallMode then some ⟨loadUserState mem t.syscallStackTop, t.syscallStackTop⟩ else none
  interrupted :=
    if t.stackTopPreserved = 0 then none
    else some ⟨loadUserState mem t.stackTopPreserved, t.stackTopPreserved⟩
  kernelThread := t.kernelThread

def Apart (t t' : SwitchThread) : Prop := t.stackEnd ≤ t'.stack ∨ t'.stackEnd ≤ t.stack

theorem Apart.symm {t t' : SwitchThread} (h : t.Apart t') : t'.Apart t := h.elim .inr .inl

variable {t : SwitchThread} {mem mem' : Nat → Word} {sp x : Nat} {regs : Context}

theorem Framed.outer_le (h : t.Framed mem sp) : t.outer ≤ t.stackEnd := by
  rw [outer]
  split
  · exact Nat.le_refl _
  · next hne =>
      have hsp := loadUserState_sp mem t.stackTopPreserved
      have hend := (h.interrupted hne).2
      omega

theorem Framed.limit_le (h : t.Framed mem sp) : t.limit ≤ t.outer := by
  rw [limit]
  split
  · next hmode =>
      have hsp := loadUserState_sp mem t.syscallStackTop
      have hend := (h.caller hmode).2.1
      omega
  · exact Nat.le_refl _

theorem Framed.keeps_bounds (h : t.Framed mem sp) (hx : t.Keeps mem x) :
    t.limit ≤ x ∧ x < t.stackEnd := by
  have houter := h.outer_le
  have hlimit := h.limit_le
  rcases hx with ⟨hmode, hle, hlt⟩ | ⟨hne, hle, hlt⟩
  · have hend := (h.caller hmode).2.1
    rw [limit, if_pos hmode] at *
    omega
  · have hend := (h.interrupted hne).2
    rw [outer, if_neg hne] at hlimit
    omega

theorem Framed.stack_le_limit (h : t.Framed mem sp) (hstack : t.stack ≤ t.stackEnd) :
    t.stack ≤ t.limit := by
  rw [limit]
  split
  · next hmode => exact (h.caller hmode).1
  · rw [outer]
    split
    · exact hstack
    · next hne => exact (h.interrupted hne).1

theorem caller_congr (hmem : ∀ x, t.Keeps mem x → mem' x = mem x) (hmode : t.syscallMode = true) :
    loadUserState mem' t.syscallStackTop = loadUserState mem t.syscallStackTop :=
  loadUserState_congr fun x hle hlt => hmem x (.inl ⟨hmode, hle, hlt⟩)

theorem interrupted_congr (hmem : ∀ x, t.Keeps mem x → mem' x = mem x)
    (hne : t.stackTopPreserved ≠ 0) :
    loadUserState mem' t.stackTopPreserved = loadUserState mem t.stackTopPreserved :=
  loadUserState_congr fun x hle hlt => hmem x (.inr ⟨hne, hle, hlt⟩)

theorem Framed.congr (h : t.Framed mem sp) (hmem : ∀ x, t.Keeps mem x → mem' x = mem x) :
    t.Framed mem' sp where
  stack_pos := h.stack_pos
  below := h.below
  caller hmode := by
    obtain ⟨hstack, hend, hargs⟩ := h.caller hmode
    have hsp := loadUserState_sp mem t.syscallStackTop
    refine ⟨hstack, by rwa [caller_congr hmem hmode], hargs.trans (getSyscallArgs_congr ?_).symm⟩
    exact hmem _ (.inl ⟨hmode, Nat.le_add_right .., by omega⟩)
  interrupted hne := by
    rw [interrupted_congr hmem hne]
    exact h.interrupted hne
  privilege := h.privilege

theorem virtual_congr (hmem : ∀ x, t.Keeps mem x → mem' x = mem x) :
    t.virtual mem' regs = t.virtual mem regs := by
  rw [virtual, virtual]
  congr 1
  · split
    · next hmode => rw [caller_congr hmem hmode]
    · rfl
  · split
    · rfl
    · next hne => rw [interrupted_congr hmem hne]

end SwitchThread

namespace SwitchSys

/-- The registers that are not on the stack. -/
def executed (s : SwitchSys) (v : Tid) : Option Context :=
  match s.cpu with
  | .thread regs _ => if v = s.runningThread then some regs else none
  | .kernel _ => none

def regs (s : SwitchSys) (v : Tid) (t : SwitchThread) : Context :=
  (s.executed v).getD (loadUserState s.mem t.stackTop)

def kernelSp (s : SwitchSys) : Nat := if s.executing then s.msp + 10 else s.msp

def virtual (s : SwitchSys) : VirtualSys where
  cpu :=
    match s.cpu with
    | .thread _ control => .thread control (loadKernelState s.mem s.msp)
    | .kernel regs => .kernel regs
  syscallFlag := s.syscallFlag
  runningThread := s.runningThread
  threads v := (s.threads v).map fun t => t.virtual s.mem (s.regs v t)

/-- Where the registers of a thread are, but for the ones that it executes with. -/
def Frames (s : SwitchSys) (v : Tid) (t : SwitchThread) (x : Nat) : Prop :=
  t.Keeps s.mem x ∨
    (s.executed v = none ∧ t.stackTop ≤ x ∧ x < (loadUserState s.mem t.stackTop).sp)

/-- Where something is saved: the main stack and the frames of all threads. -/
def Saved (s : SwitchSys) (x : Nat) : Prop :=
  (s.mainStack ≤ x ∧ x < s.mainStackEnd) ∨ ∃ v t, s.threads v = some t ∧ s.Frames v t x

/-- The stack of a new thread is free. -/
structure CreateOk (s : SwitchSys) (new : NewThread) : Prop where
  stack_pos : 0 < new.stack
  room : new.stack + 18 ≤ new.stackTop
  inside : new.stackTop ≤ new.stack + new.stackSize
  apart : ∀ v t, s.threads v = some t →
    t.stackEnd ≤ new.stack ∨ new.stack + new.stackSize ≤ t.stack
  main : new.stack + new.stackSize ≤ s.mainStack ∨ s.mainStackEnd ≤ new.stack

/-- No stack overflows, and a thread writes nowhere where something is saved. -/
def StepOk (s : SwitchSys) : SwitchEvent → Prop
  | .execute regs writes => regs.Plain ∧
      (∀ t, s.threads s.runningThread = some t → regs.sp ≤ t.limit) ∧ ∀ w ∈ writes, ¬ s.Saved w.1
  | .svc | .pendSv => ∀ t, s.threads s.runningThread = some t → ∀ regs,
      s.executed s.runningThread = some regs → t.stack + regs.frameSize ≤ regs.sp
  | .serve => ∀ t, s.threads s.runningThread = some t → t.stack + 18 ≤ t.stackTop
  | .schedule u (some _) => ∀ t, s.threads u = some t → t.stack + 18 ≤ t.stackTop
  | .create _ new => s.CreateOk new
  | _ => True

/-- The kernel loop before the first thread. -/
structure Booted (s : SwitchSys) : Prop where
  cpu : s.executing = false
  threads : ∀ v, s.threads v = none
  msp : s.mainStack + 10 ≤ s.msp ∧ s.msp ≤ s.mainStackEnd

structure ThreadSound (s : SwitchSys) (v : Tid) (t : SwitchThread) : Prop where
  framed : t.Framed s.mem (s.regs v t).sp
  saved : s.executed v = none → t.stack ≤ t.stackTop
  apart : ∀ w t', w ≠ v → s.threads w = some t' → t.Apart t'
  main : t.stackEnd ≤ s.mainStack ∨ s.mainStackEnd ≤ t.stack

structure Sound (s : SwitchSys) : Prop where
  threads : ∀ v t, s.threads v = some t → s.ThreadSound v t
  msp : s.mainStack + 10 ≤ s.kernelSp ∧ s.kernelSp ≤ s.mainStackEnd
  cpu : ∀ regs control, s.cpu = .thread regs control →
    regs.Plain ∧ ∃ t, s.threads s.runningThread = some t ∧ control = t.privilege

/-- A step that concerns one thread only. -/
structure Changes (s s' : SwitchSys) (u : Tid) : Prop where
  thread : ∀ v, v ≠ u → s'.threads v = s.threads v
  executed : ∀ v, v ≠ u → s'.executed v = s.executed v
  frames : ∀ v t, v ≠ u → s.threads v = some t → ∀ x, s.Frames v t x → s'.mem x = s.mem x
  mainStack : s'.mainStack = s.mainStack ∧ s'.mainStackEnd = s.mainStackEnd
  kernelSp : s'.kernelSp = s.kernelSp

variable {s s' : SwitchSys} {u v : Tid} {t t' : SwitchThread} {x : Nat}

theorem regs_of_none (h : s.executed v = none) : s.regs v t = loadUserState s.mem t.stackTop := by
  rw [regs, h, Option.getD_none]

theorem executed_running {regs : Context} {control : Privilege}
    (hcpu : s.cpu = .thread regs control) : s.executed s.runningThread = some regs := by
  simp only [executed, hcpu, if_true]

theorem executed_other {regs : Context} {control : Privilege}
    (hcpu : s.cpu = .thread regs control) (hv : v ≠ s.runningThread) : s.executed v = none := by
  simp only [executed, hcpu, if_neg hv]

theorem executed_kernel {kernel : KernelRegs} (hcpu : s.cpu = .kernel kernel) (v : Tid) :
    s.executed v = none := by
  simp only [executed, hcpu]

theorem ThreadSound.frames_bounds (h : s.ThreadSound v t) (hx : s.Frames v t x) :
    t.stack ≤ x ∧ x < t.stackEnd := by
  have hlimit := h.framed.stack_le_limit (Nat.le_add_right t.stack t.stackSize)
  have hend := Nat.le_trans h.framed.limit_le h.framed.outer_le
  rcases hx with hkeeps | ⟨hexec, hle, hlt⟩
  · exact (h.framed.keeps_bounds hkeeps).imp_left hlimit.trans
  · have hsaved := h.saved hexec
    have hbelow := h.framed.below
    rw [regs_of_none hexec] at hbelow
    omega

theorem Changes.of_range {lo hi : Nat} (h : s.Sound)
    (hthread : ∀ v, v ≠ u → s'.threads v = s.threads v)
    (hexec : ∀ v, v ≠ u → s'.executed v = s.executed v)
    (hmem : ∀ x, x < lo ∨ hi ≤ x → s'.mem x = s.mem x)
    (hfar : ∀ v t, v ≠ u → s.threads v = some t → t.stackEnd ≤ lo ∨ hi ≤ t.stack)
    (hmain : s'.mainStack = s.mainStack ∧ s'.mainStackEnd = s.mainStackEnd)
    (hsp : s'.kernelSp = s.kernelSp) : Changes s s' u where
  thread := hthread
  executed := hexec
  frames v t hv ht x hx := by
    obtain ⟨hle, hlt⟩ := (h.threads v t ht).frames_bounds hx
    refine hmem x ((hfar v t hv ht).imp hlt.trans_le fun hstack => hstack.trans hle)
  mainStack := hmain
  kernelSp := hsp

namespace Changes

theorem regs (h : Changes s s' u) (hv : v ≠ u) (ht : s.threads v = some t) :
    s'.regs v t = s.regs v t := by
  rw [SwitchSys.regs, SwitchSys.regs, h.executed v hv]
  cases hexec : s.executed v with
  | some c => rfl
  | none =>
      exact loadUserState_congr fun x hle hlt =>
        h.frames v t hv ht x (.inr ⟨hexec, hle, hlt⟩)

theorem virtual_thread (h : Changes s s' u) (hv : v ≠ u) (ht : s.threads v = some t) :
    t.virtual s'.mem (s'.regs v t) = t.virtual s.mem (s.regs v t) := by
  rw [h.regs hv ht]
  exact SwitchThread.virtual_congr fun x hx => h.frames v t hv ht x (.inl hx)

theorem virtual_threads (h : Changes s s' u) :
    s'.virtual.threads = Function.update s.virtual.threads u
      ((s'.threads u).map fun t => t.virtual s'.mem (s'.regs u t)) := by
  funext v
  by_cases hv : v = u
  · rw [hv, Function.update_self, SwitchSys.virtual]
  · rw [Function.update_of_ne hv, SwitchSys.virtual, SwitchSys.virtual]
    simp only [h.thread v hv]
    cases ht : s.threads v with
    | none => rfl
    | some t => rw [Option.map_some, Option.map_some, h.virtual_thread hv ht]

theorem thread_sound (h : Changes s s' u) (hsound : s.Sound) (hv : v ≠ u)
    (ht : s.threads v = some t) (hapart : ∀ t', s'.threads u = some t' → t'.Apart t) :
    s'.ThreadSound v t where
  framed := by
    rw [h.regs hv ht]
    exact (hsound.threads v t ht).framed.congr fun x hx => h.frames v t hv ht x (.inl hx)
  saved hexec := (hsound.threads v t ht).saved (h.executed v hv ▸ hexec)
  apart w t' hw ht' := by
    by_cases hu : w = u
    · exact (hapart t' (hu ▸ ht')).symm
    · exact (hsound.threads v t ht).apart w t' hw (h.thread w hu ▸ ht')
  main := by
    rw [h.mainStack.1, h.mainStack.2]
    exact (hsound.threads v t ht).main

theorem sound (h : Changes s s' u) (hsound : s.Sound)
    (hmine : ∀ t, s'.threads u = some t → s'.ThreadSound u t)
    (hcpu : ∀ regs control, s'.cpu = .thread regs control →
      regs.Plain ∧ ∃ t, s'.threads s'.runningThread = some t ∧ control = t.privilege) :
    s'.Sound where
  threads v t ht := by
    by_cases hv : v = u
    · subst hv
      exact hmine t ht
    · rw [h.thread v hv] at ht
      refine h.thread_sound hsound hv ht fun t' ht' => ?_
      exact (hmine t' ht').apart v t hv (h.thread v hv ▸ ht)
  msp := by
    rw [h.mainStack.1, h.mainStack.2, h.kernelSp]
    exact hsound.msp
  cpu := hcpu

theorem mine (h : Changes s s' u) (hsound : s.Sound) (ht : s.threads u = some t)
    (hstack : t'.stack = t.stack) (hsize : t'.stackSize = t.stackSize)
    (hframed : t'.Framed s'.mem (s'.regs u t').sp)
    (hsaved : s'.executed u = none → t.stack ≤ t'.stackTop) : s'.ThreadSound u t' where
  framed := hframed
  saved hexec := hstack ▸ hsaved hexec
  apart w t'' hw ht'' := by
    rw [SwitchThread.Apart, SwitchThread.stackEnd, hstack, hsize]
    exact (hsound.threads u t ht).apart w t'' hw (h.thread w hw ▸ ht'')
  main := by
    rw [h.mainStack.1, h.mainStack.2, SwitchThread.stackEnd, hstack, hsize]
    exact (hsound.threads u t ht).main

end Changes

theorem Booted.sound (h : s.Booted) : s.Sound where
  threads v t ht := absurd ht (by simp [h.threads v])
  msp := by
    rw [kernelSp, h.cpu]
    exact h.msp
  cpu regs control hcpu := by
    have hexec := h.cpu
    simp [executing, hcpu] at hexec

end SwitchSys

end Tenok
