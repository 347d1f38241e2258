import Tenok.Kernel.ContextSound

/-!
The steps of the kernel loop and of the threads, one by one. Each is a step of the machine in which
all threads have registers of their own.
-/
namespace Tenok

namespace SwitchThread
variable {t : SwitchThread} {mem : Nat → Word} {sp : Nat} {regs : Context} {v : Word}

theorem Framed.syscallArgs_lt (h : t.Framed mem sp) (hmode : t.syscallMode = true) :
    t.syscallStackTop ≤ t.syscallArgs 0 ∧
      t.syscallArgs 0 < (loadUserState mem t.syscallStackTop).sp := by
  rw [(h.caller hmode).2.2]
  exact getSyscallArgs_lt mem t.syscallStackTop 0

theorem Framed.caller_retval (h : t.Framed mem sp) (hmode : t.syscallMode = true) :
    loadUserState (Function.update mem (t.syscallArgs 0) v) t.syscallStackTop =
      (loadUserState mem t.syscallStackTop).setR0 v := by
  rw [(h.caller hmode).2.2, loadUserState_update]

theorem Framed.interrupted_retval (h : t.Framed mem sp) (hmode : t.syscallMode = true)
    (hne : t.stackTopPreserved ≠ 0) :
    loadUserState (Function.update mem (t.syscallArgs 0) v) t.stackTopPreserved =
      loadUserState mem t.stackTopPreserved := by
  refine loadUserState_congr fun x hle _ => Function.update_of_ne ?_ ..
  have hlt := (h.syscallArgs_lt hmode).2
  have hend := (h.caller hmode).2.1
  rw [outer, if_neg hne] at hend
  omega

theorem Framed.retval (h : t.Framed mem sp) (hmode : t.syscallMode = true) :
    t.Framed (Function.update mem (t.syscallArgs 0) v) sp where
  stack_pos := h.stack_pos
  below := h.below
  caller _ := by
    obtain ⟨hstack, hend, hargs⟩ := h.caller hmode
    refine ⟨hstack, by rwa [h.caller_retval hmode], hargs.trans ?_⟩
    rw [hargs, getSyscallArgs_update]
  interrupted hne := by
    rw [h.interrupted_retval hmode hne]
    exact h.interrupted hne
  privilege := h.privilege

theorem Framed.virtual_retval (h : t.Framed mem sp) (hmode : t.syscallMode = true) :
    t.virtual (Function.update mem (t.syscallArgs 0) v) regs = { t.virtual mem regs with
      caller := some ⟨(loadUserState mem t.syscallStackTop).setR0 v, t.syscallStackTop⟩ } := by
  rw [virtual, virtual, if_pos hmode, h.caller_retval hmode]
  congr 1
  split
  · rfl
  · next hne => rw [h.interrupted_retval hmode hne]

theorem Framed.mono {sp' : Nat} (h : t.Framed mem sp) (hsp : sp' ≤ t.limit) : t.Framed mem sp' :=
  { h with below := hsp }

theorem virtual_caller (hmode : t.syscallMode = true) : (t.virtual mem regs).caller =
    some ⟨loadUserState mem t.syscallStackTop, t.syscallStackTop⟩ :=
  if_pos hmode

theorem virtual_interrupted (hne : t.stackTopPreserved ≠ 0) : (t.virtual mem regs).interrupted =
    some ⟨loadUserState mem t.stackTopPreserved, t.stackTopPreserved⟩ :=
  if_neg hne

theorem Framed.syscall {mem' : Nat → Word} {stackTop : Nat}
    (h : t.Framed mem (loadUserState mem t.stackTop).sp) (hstack : t.stack ≤ t.stackTop)
    (hmode : t.syscallMode = false) (hmem : ∀ x, t.stackTop ≤ x → mem' x = mem x) :
    Framed { t with
      stackTop
      syscallArgs := getSyscallArgs mem t.stackTop
      syscallStackTop := t.stackTop
      privilege := .kernelThread
      syscallMode := true } mem' t.stackTop where
  stack_pos := h.stack_pos
  below := Nat.le_refl t.stackTop
  caller _ := by
    have hbelow := h.below
    rw [limit, if_neg (Bool.eq_false_iff.mp hmode)] at hbelow
    refine ⟨hstack, ?_, (getSyscallArgs_congr (hmem _ (Nat.le_add_right t.stackTop 8))).symm⟩
    rwa [loadUserState_congr fun x hle _ => hmem x hle]
  interrupted hne := by
    have hsp := loadUserState_sp mem t.stackTop
    have hbelow := h.below
    rw [limit, if_neg (Bool.eq_false_iff.mp hmode), outer, if_neg hne] at hbelow
    have hsame : loadUserState mem' t.stackTopPreserved = loadUserState mem t.stackTopPreserved :=
      loadUserState_congr fun x hle _ => hmem x (by omega)
    exact hsame ▸ h.interrupted hne
  privilege := (if_pos (.inl rfl)).symm

theorem Framed.signal {mem' : Nat → Word} {stackTop : Nat}
    (h : t.Framed mem (loadUserState mem t.stackTop).sp) (hstack : t.stack ≤ t.stackTop)
    (hmode : t.syscallMode = false) (hnone : t.stackTopPreserved = 0)
    (hmem : ∀ x, t.stackTop ≤ x → mem' x = mem x) :
    Framed { t with stackTop, stackTopPreserved := t.stackTop } mem' t.stackTop where
  stack_pos := h.stack_pos
  below := by
    have hne : t.stackTop ≠ 0 := (h.stack_pos.trans_le hstack).ne'
    simp only [limit, hmode, outer, if_neg hne]
    exact Nat.le_refl t.stackTop
  caller hmode' := absurd hmode' (Bool.eq_false_iff.mp hmode)
  interrupted _ := by
    have hbelow := h.below
    rw [limit, if_neg (Bool.eq_false_iff.mp hmode), outer, if_pos hnone] at hbelow
    rw [loadUserState_congr fun x hle _ => hmem x hle]
    exact ⟨hstack, hbelow⟩
  privilege := h.privilege

theorem Framed.syscallReturn (h : t.Framed mem sp) (hmode : t.syscallMode = true) :
    t.syscallReturnEventHandler.Framed mem (loadUserState mem t.syscallStackTop).sp where
  stack_pos := h.stack_pos
  below := (h.caller hmode).2.1
  caller hmode' := absurd hmode' Bool.false_ne_true
  interrupted := h.interrupted
  privilege := by
    simp only [syscallReturnEventHandler, Bool.false_eq_true, false_or]

theorem Framed.signalCleanup (h : t.Framed mem sp) (hmode : t.syscallMode = false)
    (hne : t.stackTopPreserved ≠ 0) :
    t.signalCleanupEventHandler.Framed mem (loadUserState mem t.stackTopPreserved).sp where
  stack_pos := h.stack_pos
  below := by
    have hmode' : t.signalCleanupEventHandler.syscallMode = false := hmode
    rw [limit, if_neg (Bool.eq_false_iff.mp hmode')]
    exact (h.interrupted hne).2
  caller hmode' := absurd hmode' (Bool.eq_false_iff.mp hmode)
  interrupted hne' := absurd rfl hne'
  privilege := h.privilege

theorem Framed.virtual_syscall {mem' : Nat → Word} {code : KernelCode} {num : Nat}
    (h : t.Framed mem (loadUserState mem t.stackTop).sp) (hmode : t.syscallMode = false)
    (hmem : ∀ x, t.stackTop ≤ x → mem' x = mem x) :
    virtual { t with
      stackTop := t.stackTop - 18
      syscallArgs := getSyscallArgs mem t.stackTop
      syscallStackTop := t.stackTop
      privilege := .kernelThread
      syscallMode := true } mem' (.initial t.stackTop (code.handlerFunc num)
        code.syscallReturnHandler fun i => mem (getSyscallArgs mem t.stackTop 0 + i)) =
      (t.virtual mem (loadUserState mem t.stackTop)).syscall code num := by
  have hbelow := h.below
  have hsp := loadUserState_sp mem t.stackTop
  have hcaller : (t.virtual mem (loadUserState mem t.stackTop)).caller = none :=
    if_neg (Bool.eq_false_iff.mp hmode)
  rw [VirtualThread.syscall, if_neg (by rw [hcaller]; exact Bool.false_ne_true)]
  simp only [virtual, if_true, VirtualThread.staged, getSyscallArgs_add, ← loadUserState_r0to3]
  rw [loadUserState_congr fun x hle _ => hmem x hle]
  congr 1
  split
  · rfl
  · next hne =>
      rw [limit, if_neg (Bool.eq_false_iff.mp hmode), outer, if_neg hne] at hbelow
      rw [loadUserState_congr fun x hle _ => hmem x (by omega)]

theorem Framed.virtual_signal {mem' : Nat → Word} {code : KernelCode} {info : StagedHandlerInfo}
    (h : t.Framed mem (loadUserState mem t.stackTop).sp) (hstack : t.stack ≤ t.stackTop)
    (hmode : t.syscallMode = false) (hnone : t.stackTopPreserved = 0)
    (hmem : ∀ x, t.stackTop ≤ x → mem' x = mem x) :
    virtual { t with stackTop := t.stackTop - 18, stackTopPreserved := t.stackTop } mem'
        (.initial t.stackTop info.func code.signalCleanupHandler info.args) =
      (t.virtual mem (loadUserState mem t.stackTop)).signal code (some info) := by
  have hne : t.stackTop ≠ 0 := (h.stack_pos.trans_le hstack).ne'
  simp only [VirtualThread.signal, virtual, hmode, hnone, VirtualThread.staged]
  simp only [Bool.false_eq_true, if_false, if_true, Option.isSome_none, or_self, if_neg hne]
  rw [loadUserState_congr fun x hle _ => hmem x hle]

theorem Framed.moved (h : t.Framed mem sp) (stackTop : Nat) : Framed { t with stackTop } mem sp :=
  ⟨h.stack_pos, h.below, h.caller, h.interrupted, h.privilege⟩

theorem Framed.virtual_privilege (h : t.Framed mem sp) :
    (t.virtual mem regs).privilege = t.privilege := by
  rw [h.privilege, VirtualThread.privilege, virtual]
  cases t.syscallMode <;> rfl

end SwitchThread

namespace SwitchSys
variable {code : KernelCode} {s s' : SwitchSys} {u v : Tid} {t t' : SwitchThread}
  {thread : VirtualThread}

theorem regs_running {regs : Context} {control : Privilege} (hcpu : s.cpu = .thread regs control)
    (t : SwitchThread) : s.regs s.runningThread t = regs := by
  rw [SwitchSys.regs, executed_running hcpu, Option.getD_some]

theorem virtual_cpu_thread {regs : Context} {control : Privilege}
    (hcpu : s.cpu = .thread regs control) :
    s.virtual.cpu = .thread control (loadKernelState s.mem s.msp) := by
  rw [virtual, hcpu]

theorem virtual_cpu_kernel {kernel : KernelRegs} (hcpu : s.cpu = .kernel kernel) :
    s.virtual.cpu = .kernel kernel := by
  rw [virtual, hcpu]

theorem virtual_some (ht : s.threads v = some t) :
    s.virtual.threads v = some (t.virtual s.mem (s.regs v t)) := by
  simp only [virtual, ht, Option.map_some]

theorem virtual_executing (s : SwitchSys) : s.virtual.executing = s.executing := by
  rw [virtual, VirtualSys.executing, executing]
  cases s.cpu <;> rfl

theorem loadKernelState_congr {mem mem' : Nat → Word} {msp : Nat}
    (h : ∀ x, msp ≤ x → x < msp + 10 → mem' x = mem x) :
    loadKernelState mem' msp = loadKernelState mem msp := by
  rw [loadKernelState, loadKernelState, h (msp + 8) (by omega) (by omega),
    h (msp + 9) (by omega) (by omega)]
  congr 1
  funext i
  exact h _ (Nat.le_add_right ..) (by omega)

theorem foldl_update_of_ne {mem : Nat → Word} {writes : List (Nat × Word)} {x : Nat}
    (h : ∀ w ∈ writes, w.1 ≠ x) :
    writes.foldl (fun mem w => Function.update mem w.1 w.2) mem x = mem x := by
  induction writes generalizing mem with
  | nil => rfl
  | cons w writes ih =>
      rw [List.foldl_cons, ih fun w' hw' => h w' (List.mem_cons_of_mem w hw')]
      exact Function.update_of_ne (h w List.mem_cons_self).symm ..

theorem Changes.of_stack (h : s.Sound) (ht : s.threads u = some t)
    (hthread : ∀ v, v ≠ u → s'.threads v = s.threads v)
    (hexec : ∀ v, v ≠ u → s'.executed v = s.executed v)
    (hmem : ∀ x, x < t.stack ∨ t.stackEnd ≤ x → s'.mem x = s.mem x)
    (hmain : s'.mainStack = s.mainStack ∧ s'.mainStackEnd = s.mainStackEnd)
    (hsp : s'.kernelSp = s.kernelSp) : Changes s s' u :=
  .of_range h hthread hexec hmem (fun v t' hv ht' => ((h.threads u t ht).apart v t' hv ht').symm)
    hmain hsp

theorem Sound.kernel_congr {mem : Nat → Word} {lo hi : Nat} (h : s.Sound)
    (hexec : s.executing = true) (hmain : hi ≤ s.mainStack ∨ s.mainStackEnd ≤ lo)
    (hmem : ∀ x, x < lo ∨ hi ≤ x → mem x = s.mem x) :
    loadKernelState mem s.msp = loadKernelState s.mem s.msp := by
  refine loadKernelState_congr fun x hle hlt => hmem x ?_
  have hmsp := h.msp
  rw [kernelSp, if_pos hexec] at hmsp
  omega

theorem Sound.kernel_step {kernel : KernelRegs} (h : s.Sound) (ht : s.threads u = some t)
    (hcpu : s.cpu = .kernel kernel) (flag : Bool) (running : Tid) (mem : Nat → Word)
    (t' : SwitchThread) (regs : Context) (hmem : ∀ x, x < t.stack ∨ t.stackEnd ≤ x → mem x = s.mem x)
    (hstack : t'.stack = t.stack ∧ t'.stackSize = t.stackSize) (hsaved : t.stack ≤ t'.stackTop)
    (hregs : loadUserState mem t'.stackTop = regs) (hframed : t'.Framed mem regs.sp) :
    Sound { s with
      mem
      syscallFlag := flag
      runningThread := running
      threads := Function.update s.threads u (some t') } ∧
    virtual { s with
      mem
      syscallFlag := flag
      runningThread := running
      threads := Function.update s.threads u (some t') } = {
        cpu := s.virtual.cpu
        syscallFlag := flag
        runningThread := running
        threads := Function.update s.virtual.threads u (some (t'.virtual mem regs)) } := by
  generalize hs' : { s with
    mem
    syscallFlag := flag
    runningThread := running
    threads := Function.update s.threads u (some t') } = s'
  have hcpu' : s'.cpu = .kernel kernel := by rw [← hs', ← hcpu]
  have hmine : s'.threads u = some t' := by rw [← hs']; exact Function.update_self ..
  have hchanges : Changes s s' u := .of_stack h ht
    (fun v hv => by rw [← hs']; exact Function.update_of_ne hv ..)
    (fun v _ => by rw [executed_kernel hcpu, executed_kernel hcpu'])
    (by rw [← hs']; exact hmem) (by rw [← hs']; exact ⟨rfl, rfl⟩) (by rw [← hs']; rfl)
  have hregs' : s'.regs u t' = regs := by
    rw [regs_of_none (executed_kernel hcpu' u), ← hregs, ← hs']
  refine ⟨hchanges.sound h (fun t'' ht'' => ?_) fun regs control hcpu'' => ?_, ?_⟩
  · obtain rfl : t' = t'' := Option.some.inj (hmine.symm.trans ht'')
    refine hchanges.mine h ht hstack.1 hstack.2 ?_ fun _ => hsaved
    rw [hregs', ← hs']
    exact hframed
  · exact Cpu.noConfusion (hcpu'.symm.trans hcpu'')
  · refine VirtualSys.ext ?_ (by rw [← hs']; rfl) (by rw [← hs']; rfl) ?_
    · rw [virtual_cpu_kernel hcpu, virtual_cpu_kernel hcpu']
    · rw [hchanges.virtual_threads, hmine, Option.map_some, hregs', ← hs']

theorem execute_refines {regs : Context} {writes : List (Nat × Word)} (h : s.Sound)
    (hok : s.StepOk (.execute regs writes)) (hstep : s.step code (.execute regs writes) = some s') :
    s'.Sound ∧ VirtualSys.step code s.virtual (.execute regs writes) = some s'.virtual := by
  cases hcpu : s.cpu with
  | kernel kernel => simp [step, hcpu] at hstep
  | thread old control =>
      simp only [step, hcpu, Option.some.injEq] at hstep
      obtain ⟨-, t, ht, hcontrol⟩ := h.cpu old control hcpu
      obtain ⟨hplain, hsp, hwrites⟩ := hok
      have hmem (x : Nat) (hx : s.Saved x) : s'.mem x = s.mem x := by
        rw [← hstep]
        exact foldl_update_of_ne fun w hw heq => hwrites w hw (heq ▸ hx)
      have hcpu' : s'.cpu = .thread regs control := by rw [← hstep]
      have hthreads : s'.threads = s.threads := by rw [← hstep]
      have hrunning : s'.runningThread = s.runningThread := by rw [← hstep]
      have hmsp : s'.msp = s.msp := by rw [← hstep]
      have hchanges : Changes s s' s.runningThread := {
        thread := fun v _ => by rw [hthreads]
        executed := fun v hv => by
          rw [executed_other hcpu hv, executed_other hcpu' (hrunning ▸ hv)]
        frames := fun v t _ ht x hx => hmem x (.inr ⟨v, t, ht, hx⟩)
        mainStack := by rw [← hstep]; exact ⟨rfl, rfl⟩
        kernelSp := by simp only [kernelSp, executing, hcpu, hcpu', hmsp] }
      have hregs : s'.regs s.runningThread t = regs := hrunning ▸ regs_running hcpu' t
      have hkeeps (x : Nat) (hx : t.Keeps s.mem x) : s'.mem x = s.mem x :=
        hmem x (.inr ⟨_, t, ht, .inl hx⟩)
      have hkernel : loadKernelState s'.mem s.msp = loadKernelState s.mem s.msp := by
        refine loadKernelState_congr fun x hle hlt => hmem x (.inl ?_)
        have hmain := h.msp
        simp only [kernelSp, executing, hcpu, if_true] at hmain
        omega
      refine ⟨hchanges.sound h (fun t' ht' => ?_) fun regs' control' hcpu'' => ?_, ?_⟩
      · obtain rfl : t = t' := Option.some.inj (ht.symm.trans (hthreads ▸ ht'))
        refine hchanges.mine h ht rfl rfl ?_ fun hexec => ?_
        · rw [hregs]
          exact ((h.threads _ t ht).framed.congr hkeeps).mono (hsp t ht)
        · rw [← hrunning, executed_running hcpu'] at hexec
          exact absurd hexec (Option.some_ne_none regs)
      · obtain ⟨rfl, rfl⟩ := Cpu.thread.inj (hcpu'.symm.trans hcpu'')
        exact ⟨hplain, t, by rw [hthreads, hrunning, ht], hcontrol⟩
      · simp only [VirtualSys.step, virtual_cpu_thread hcpu]
        rw [show s.virtual.runningThread = s.runningThread from rfl, virtual_some ht]
        refine congrArg some (VirtualSys.ext ?_ ?_ ?_ ?_)
        · rw [virtual_cpu_thread hcpu', hmsp, hkernel]
          exact virtual_cpu_thread hcpu
        · rw [← hstep]
          rfl
        · exact hrunning.symm
        · rw [hchanges.virtual_threads, hthreads, ht, Option.map_some, hregs,
            SwitchThread.virtual_congr hkeeps]
          rfl

theorem saveRetval_refines (h : s.Sound) (hstep : s.step code .saveRetval = some s') :
    s'.Sound ∧ VirtualSys.step code s.virtual .saveRetval = some s'.virtual := by
  cases hcpu : s.cpu with
  | kernel kernel => simp [step, hcpu] at hstep
  | thread regs control =>
      obtain ⟨hplain, t, ht, hcontrol⟩ := h.cpu regs control hcpu
      simp only [step, hcpu, ht, Option.ite_none_right_eq_some, Option.some.injEq] at hstep
      obtain ⟨hmode, hstep⟩ := hstep
      have hcpu' : s'.cpu = .thread regs control := by rw [← hstep]
      have hthreads : s'.threads = s.threads := by rw [← hstep]
      have hmsp : s'.msp = s.msp := by rw [← hstep]
      have hmem' : s'.mem = Function.update s.mem (t.syscallArgs 0) (regs.r0to3 0) := by
        rw [← hstep]
      have hrunning : s'.runningThread = s.runningThread := by rw [← hstep]
      have hframed := (h.threads _ t ht).framed
      have hmem (x : Nat) (hx : x < t.stack ∨ t.stackEnd ≤ x) : s'.mem x = s.mem x := by
        obtain ⟨hle, hlt⟩ := hframed.syscallArgs_lt hmode
        obtain ⟨hstack, hend, -⟩ := hframed.caller hmode
        have houter := hframed.outer_le
        rw [hmem']
        exact Function.update_of_ne (by omega) ..
      have hchanges : Changes s s' s.runningThread := .of_stack h ht
        (fun _ _ => by rw [hthreads])
        (fun v hv => by rw [executed_other hcpu hv, executed_other hcpu' (hrunning ▸ hv)])
        hmem (by rw [← hstep]; exact ⟨rfl, rfl⟩)
        (by simp only [kernelSp, executing, hcpu, hcpu', hmsp])
      have hregs : s'.regs s.runningThread t = regs := hrunning ▸ regs_running hcpu' t
      have hexec : s.executing = true := by rw [executing, hcpu]
      rw [regs_running hcpu] at hframed
      refine ⟨hchanges.sound h (fun t' ht' => ?_) fun regs' control' hcpu'' => ?_, ?_⟩
      · obtain rfl : t = t' := Option.some.inj (ht.symm.trans (hthreads ▸ ht'))
        refine hchanges.mine h ht rfl rfl ?_ fun hnone => ?_
        · rw [hregs, hmem']
          exact hframed.retval hmode
        · rw [← hrunning, executed_running hcpu'] at hnone
          exact absurd hnone (Option.some_ne_none regs)
      · obtain ⟨rfl, rfl⟩ := Cpu.thread.inj (hcpu'.symm.trans hcpu'')
        exact ⟨hplain, t, by rw [hthreads, hrunning, ht], hcontrol⟩
      · simp only [VirtualSys.step, virtual_cpu_thread hcpu]
        rw [show s.virtual.runningThread = s.runningThread from rfl, virtual_some ht]
        simp only [SwitchThread.virtual_caller hmode, Option.map_some, regs_running hcpu]
        refine congrArg some (VirtualSys.ext ?_ ?_ hrunning.symm ?_)
        · rw [virtual_cpu_thread hcpu', hmsp, h.kernel_congr hexec (h.threads _ t ht).main hmem]
          exact virtual_cpu_thread hcpu
        · rw [← hstep]
          rfl
        · rw [hchanges.virtual_threads, hthreads, ht, Option.map_some, hregs, hmem',
            hframed.virtual_retval hmode]
          rfl

theorem pendSv_refines (h : s.Sound) (hok : s.StepOk .pendSv)
    (hstep : s.pendSvHandler = some s') :
    s'.Sound ∧ s.virtual.enter = some s'.virtual := by
  cases hcpu : s.cpu with
  | kernel kernel => simp [pendSvHandler, hcpu] at hstep
  | thread regs control =>
      obtain ⟨hplain, t, ht, hcontrol⟩ := h.cpu regs control hcpu
      simp only [pendSvHandler, hcpu, ht, Option.some.injEq] at hstep
      have hroom : t.stack + regs.frameSize ≤ regs.sp := hok t ht regs (executed_running hcpu)
      have htop : regs.frameTop + regs.frameSize = regs.sp := frameTop_add (by omega)
      have hframed := (h.threads _ t ht).framed
      rw [regs_running hcpu] at hframed
      have hlimit := hframed.below
      have hend := Nat.le_trans hframed.limit_le hframed.outer_le
      have hmem' : s'.mem = (saveUserState regs s.mem).2 := by rw [← hstep]
      have houtside (x : Nat) (hx : x < t.stack ∨ t.limit ≤ x) : s'.mem x = s.mem x := by
        rw [hmem']
        exact saveUserState_outside (by omega) (by omega)
      have hexec : s.executing = true := by rw [executing, hcpu]
      have hcpu' : s'.cpu = .kernel (loadKernelState s.mem s.msp) := by
        rw [← h.kernel_congr hexec (h.threads _ t ht).main
          fun x hx => houtside x (hx.imp_right hend.trans), ← hstep]
      have hthreads : s'.threads = Function.update s.threads s.runningThread
          (some { t with stackTop := regs.frameTop }) := by
        rw [← hstep, saveUserState_eq (by omega)]
        rfl
      have hmsp : s'.msp = s.msp + 10 := by rw [← hstep]
      have hchanges : Changes s s' s.runningThread := .of_stack h ht
        (fun v hv => by rw [hthreads, Function.update_of_ne hv])
        (fun v hv => by rw [executed_other hcpu hv, executed_kernel hcpu'])
        (fun x hx => houtside x (hx.imp_right hend.trans))
        (by rw [← hstep]; exact ⟨rfl, rfl⟩)
        (by
          rw [kernelSp, if_neg (by simp [executing, hcpu']), hmsp, kernelSp, if_pos hexec])
      have hregs : s'.regs s.runningThread { t with stackTop := regs.frameTop } = regs := by
        rw [regs_of_none (executed_kernel hcpu' _), hmem']
        exact loadUserState_save hplain (by omega)
      have hkeeps (x : Nat) (hx : t.Keeps s.mem x) : s'.mem x = s.mem x :=
        houtside x (.inr (hframed.keeps_bounds hx).1)
      have hmine : s'.threads s.runningThread = some { t with stackTop := regs.frameTop } := by
        rw [hthreads, Function.update_self]
      refine ⟨hchanges.sound h (fun t' ht' => ?_) fun regs' control' hcpu'' => ?_, ?_⟩
      · obtain rfl := Option.some.inj (hmine.symm.trans ht')
        refine hchanges.mine h ht rfl rfl ?_ fun _ => ?_
        · rw [hregs]
          exact (hframed.congr hkeeps).moved regs.frameTop
        · change t.stack ≤ regs.frameTop
          omega
      · exact Cpu.noConfusion (hcpu'.symm.trans hcpu'')
      · simp only [VirtualSys.enter, virtual_cpu_thread hcpu]
        rw [show s.virtual.runningThread = s.runningThread from rfl, virtual_some ht]
        refine congrArg some (VirtualSys.ext ?_ ?_ ?_ ?_)
        · exact (virtual_cpu_kernel hcpu').symm
        · rw [← hstep]
          rfl
        · rw [← hstep]
          rfl
        · rw [hchanges.virtual_threads, hmine, Option.map_some, hregs, regs_running hcpu,
            ← SwitchThread.virtual_congr hkeeps]
          rfl

theorem Sound.stackTop_le (h : s.Sound) (ht : s.threads u = some t) (hexec : s.executed u = none) :
    t.stackTop ≤ t.stackEnd := by
  have hframed := (h.threads u t ht).framed
  have hsp := loadUserState_sp s.mem t.stackTop
  have hbelow := hframed.below
  have hend := Nat.le_trans hframed.limit_le hframed.outer_le
  rw [regs_of_none hexec] at hbelow
  omega

theorem Sound.kernel_idle {kernel : KernelRegs} (h : s.Sound) (ht : s.threads u = some t)
    (hcpu : s.cpu = .kernel kernel) (flag : Bool) (running : Tid) :
    Sound { s with syscallFlag := flag, runningThread := running } ∧
    virtual { s with syscallFlag := flag, runningThread := running } = {
      cpu := s.virtual.cpu
      syscallFlag := flag
      runningThread := running
      threads := Function.update s.virtual.threads u
        (some (t.virtual s.mem (loadUserState s.mem t.stackTop))) } := by
  have hsound := h.threads u t ht
  have hexec := executed_kernel hcpu u
  have hstep := h.kernel_step ht hcpu flag running s.mem t (loadUserState s.mem t.stackTop)
    (fun _ _ => rfl) ⟨rfl, rfl⟩ (hsound.saved hexec) rfl (regs_of_none hexec ▸ hsound.framed)
  rwa [← ht, Function.update_eq_self] at hstep

theorem Sound.kernel_stage {kernel : KernelRegs} {func returnHandler : Word} {args : Fin 4 → Word}
    (h : s.Sound) (ht : s.threads u = some t) (hcpu : s.cpu = .kernel kernel) (flag : Bool)
    (running : Tid) (hroom : t.stack + 18 ≤ t'.stackTop ∧ t'.stackTop ≤ t.stackEnd)
    (hstack : t'.stack = t.stack ∧ t'.stackSize = t.stackSize)
    (hframed : ∀ mem, (∀ x, t'.stackTop ≤ x → mem x = s.mem x) →
      SwitchThread.Framed { t' with stackTop := t'.stackTop - 18 } mem t'.stackTop)
    (hthread : ∀ mem, (∀ x, t'.stackTop ≤ x → mem x = s.mem x) →
      SwitchThread.virtual { t' with stackTop := t'.stackTop - 18 } mem
        (.initial t'.stackTop func returnHandler args) = thread) :
    Sound (stage { s with syscallFlag := flag, runningThread := running } u t' func returnHandler
      args) ∧
    virtual (stage { s with syscallFlag := flag, runningThread := running } u t' func returnHandler
      args) = {
        cpu := s.virtual.cpu
        syscallFlag := flag
        runningThread := running
        threads := Function.update s.virtual.threads u (some thread) } := by
  have hroom' : 18 ≤ t'.stackTop := by omega
  have habove (x : Nat) (hx : t'.stackTop ≤ x) :
      (stackInit t'.stackTop func returnHandler args s.mem).2 x = s.mem x :=
    stackInit_outside hroom' (.inr hx)
  rw [← hthread _ habove]
  refine h.kernel_step ht hcpu flag running _ { t' with stackTop := t'.stackTop - 18 } _
    (fun x hx => stackInit_outside hroom' (by omega)) hstack ?_ (loadUserState_stackInit hroom')
    (hframed _ habove)
  change t.stack ≤ t'.stackTop - 18
  omega

theorem setupSyscall_refines {kernel : KernelRegs} (h : s.Sound) (hcpu : s.cpu = .kernel kernel)
    (ht : s.threads s.runningThread = some t) (hok : s.StepOk .serve) (num : Nat) :
    (setupSyscall code { s with syscallFlag := false } t num).Sound ∧
    (setupSyscall code { s with syscallFlag := false } t num).virtual = {
      cpu := s.virtual.cpu
      syscallFlag := false
      runningThread := s.runningThread
      threads := Function.update s.virtual.threads s.runningThread
        (some ((t.virtual s.mem (loadUserState s.mem t.stackTop)).syscall code num)) } := by
  have hexec := executed_kernel hcpu s.runningThread
  have hframed := (h.threads _ t ht).framed
  have hstack := (h.threads _ t ht).saved hexec
  have hend := h.stackTop_le ht hexec
  rw [regs_of_none hexec] at hframed
  cases hmode : t.syscallMode with
  | true =>
      rw [setupSyscall, if_pos hmode, VirtualThread.syscall, SwitchThread.virtual_caller hmode,
        if_pos Option.isSome_some]
      exact h.kernel_idle ht hcpu false s.runningThread
  | false =>
      rw [setupSyscall, if_neg (Bool.eq_false_iff.mp hmode)]
      exact h.kernel_stage ht hcpu false s.runningThread ⟨hok t ht, hend⟩
        ⟨rfl, rfl⟩ (fun _ hmem => hframed.syscall hstack hmode hmem)
        fun _ hmem => hframed.virtual_syscall hmode hmem

theorem checkPendingSignals_refines {kernel : KernelRegs} (h : s.Sound)
    (hcpu : s.cpu = .kernel kernel) (ht : s.threads u = some t) (hmode : t.syscallMode = false)
    (signal : Option StagedHandlerInfo) (hok : s.StepOk (.schedule u signal)) :
    (checkPendingSignals code { s with runningThread := u } t signal).Sound ∧
    (checkPendingSignals code { s with runningThread := u } t signal).virtual = {
      cpu := s.virtual.cpu
      syscallFlag := s.syscallFlag
      runningThread := u
      threads := Function.update s.virtual.threads u
        (some ((t.virtual s.mem (loadUserState s.mem t.stackTop)).signal code signal)) } := by
  have hexec := executed_kernel hcpu u
  have hframed := (h.threads _ t ht).framed
  have hstack := (h.threads _ t ht).saved hexec
  have hend := h.stackTop_le ht hexec
  rw [regs_of_none hexec] at hframed
  cases signal with
  | none => exact h.kernel_idle ht hcpu s.syscallFlag u
  | some info =>
      by_cases hnone : t.stackTopPreserved = 0
      · rw [checkPendingSignals, if_neg (not_not.mpr hnone)]
        exact h.kernel_stage ht hcpu s.syscallFlag u ⟨hok t ht, hend⟩ ⟨rfl, rfl⟩
          (fun _ hmem => hframed.signal hstack hmode hnone hmem)
          fun _ hmem => hframed.virtual_signal hstack hmode hnone hmem
      · rw [checkPendingSignals, if_pos hnone, VirtualThread.signal,
          SwitchThread.virtual_interrupted hnone, if_pos (.inr Option.isSome_some)]
        exact h.kernel_idle ht hcpu s.syscallFlag u

theorem syscallHandler_refines {kernel : KernelRegs} (h : s.Sound) (hcpu : s.cpu = .kernel kernel)
    (ht : s.threads s.runningThread = some t) (hok : s.StepOk .serve)
    (hstep : syscallHandler code { s with syscallFlag := false } = some s') :
    s'.Sound ∧ ∃ thread, (t.virtual s.mem (loadUserState s.mem t.stackTop)).serve code = some thread ∧
      s'.virtual = {
        cpu := s.virtual.cpu
        syscallFlag := false
        runningThread := s.runningThread
        threads := Function.update s.virtual.threads s.runningThread (some thread) } := by
  have hexec := executed_kernel hcpu s.runningThread
  have hframed := (h.threads _ t ht).framed
  rw [regs_of_none hexec] at hframed
  simp only [syscallHandler, ht, getSyscallNum_eq] at hstep
  have hnum : (t.virtual s.mem (loadUserState s.mem t.stackTop)).current.regs.r7.toNat =
    (loadUserState s.mem t.stackTop).r7.toNat := rfl
  simp only [VirtualThread.serve, hnum]
  generalize (loadUserState s.mem t.stackTop).r7.toNat = num at hstep
  by_cases hzero : num = 0
  · rw [if_pos hzero] at hstep ⊢
    obtain rfl := Option.some.inj hstep
    have hidle := h.kernel_idle ht hcpu false s.runningThread
    exact ⟨hidle.1, _, rfl, hidle.2⟩
  rw [if_neg hzero] at hstep ⊢
  by_cases hreturn : num = syscallReturnEvent
  · rw [if_pos hreturn, Option.ite_none_right_eq_some] at hstep
    obtain ⟨hmode, hstep⟩ := hstep
    obtain rfl := Option.some.inj hstep
    have hkernel := h.kernel_step ht hcpu false s.runningThread s.mem t.syscallReturnEventHandler
      (loadUserState s.mem t.syscallStackTop) (fun _ _ => rfl) ⟨rfl, rfl⟩ (hframed.caller hmode).1
      rfl (hframed.syscallReturn hmode)
    refine ⟨hkernel.1, _, ?_, hkernel.2⟩
    rw [if_pos hreturn, SwitchThread.virtual_caller hmode, Option.map_some]
    rfl
  rw [if_neg hreturn] at hstep ⊢
  by_cases hcleanup : num = signalCleanupEvent
  · rw [if_pos hcleanup, Option.ite_none_right_eq_some] at hstep
    obtain ⟨⟨hmode, hne⟩, hstep⟩ := hstep
    obtain rfl := Option.some.inj hstep
    have hkernel := h.kernel_step ht hcpu false s.runningThread s.mem t.signalCleanupEventHandler
      (loadUserState s.mem t.stackTopPreserved) (fun _ _ => rfl) ⟨rfl, rfl⟩
      (hframed.interrupted hne).1 rfl (hframed.signalCleanup hmode hne)
    have hcaller : (t.virtual s.mem (loadUserState s.mem t.stackTop)).caller = none :=
      if_neg (Bool.eq_false_iff.mp hmode)
    refine ⟨hkernel.1, _, ?_, hkernel.2⟩
    rw [if_pos hcleanup, if_neg (by simp [hcaller]), SwitchThread.virtual_interrupted hne,
      Option.map_some, hcaller]
    simp only [SwitchThread.virtual, SwitchThread.signalCleanupEventHandler, hmode,
      Bool.false_eq_true, if_false, if_true]
  rw [if_neg hcleanup] at hstep ⊢
  rw [Option.ite_none_right_eq_some] at hstep
  obtain ⟨hcnt, hstep⟩ := hstep
  obtain rfl := Option.some.inj hstep
  exact (setupSyscall_refines h hcpu ht hok num).imp_right fun hvirtual =>
    ⟨_, if_pos hcnt, hvirtual⟩

theorem serve_refines (h : s.Sound) (hok : s.StepOk .serve) (hstep : s.step code .serve = some s') :
    s'.Sound ∧ VirtualSys.step code s.virtual .serve = some s'.virtual := by
  cases hcpu : s.cpu with
  | thread regs control => simp [step, executing, hcpu] at hstep
  | kernel kernel =>
      have hexec : s.executing = false := by rw [executing, hcpu]
      have hflag : s.virtual.syscallFlag = s.syscallFlag := rfl
      simp only [step, hexec, Bool.false_eq_true, if_false] at hstep
      simp only [VirtualSys.step, virtual_executing, hexec, Bool.false_eq_true, if_false, hflag]
      cases hcall : s.syscallFlag with
      | false =>
          rw [hcall, if_neg Bool.false_ne_true, Option.some.injEq] at hstep
          subst hstep
          exact ⟨h, rfl⟩
      | true =>
          rw [hcall, if_pos rfl] at hstep
          rw [if_pos rfl]
          cases ht : s.threads s.runningThread with
          | none => simp [syscallHandler, ht] at hstep
          | some t =>
              obtain ⟨hsound, thread, hserve, hvirtual⟩ :=
                syscallHandler_refines h hcpu ht hok hstep
              refine ⟨hsound, ?_⟩
              have hthread := virtual_some ht
              rw [regs_of_none (executed_kernel hcpu _)] at hthread
              rw [show s.virtual.runningThread = s.runningThread from rfl, hthread,
                Option.bind_eq_bind, Option.bind_some, hserve, hvirtual]
              rfl

theorem schedule_refines {signal : Option StagedHandlerInfo} (h : s.Sound)
    (hok : s.StepOk (.schedule u signal)) (hstep : s.step code (.schedule u signal) = some s') :
    s'.Sound ∧ VirtualSys.step code s.virtual (.schedule u signal) = some s'.virtual := by
  cases hcpu : s.cpu with
  | thread regs control => simp [step, executing, hcpu] at hstep
  | kernel kernel =>
      have hexec : s.executing = false := by rw [executing, hcpu]
      simp only [step, hexec, Bool.false_eq_true, if_false] at hstep
      simp only [VirtualSys.step, virtual_executing, hexec, Bool.false_eq_true, if_false]
      rw [schedule, Option.map_eq_some_iff] at hstep
      obtain ⟨t, ht, rfl⟩ := hstep
      rw [virtual_some ht, Option.map_some, regs_of_none (executed_kernel hcpu u)]
      cases hmode : t.syscallMode with
      | true =>
          have hidle := h.kernel_idle ht hcpu s.syscallFlag u
          have hcaller : (t.virtual s.mem (loadUserState s.mem t.stackTop)).caller.isSome := by
            rw [SwitchThread.virtual_caller hmode, Option.isSome_some]
          refine ⟨hidle.1, congrArg some (Eq.trans ?_ hidle.2.symm)⟩
          cases signal with
          | none => rfl
          | some info =>
              rw [VirtualThread.signal, if_pos (.inl hcaller)]
              rfl
      | false =>
          exact (checkPendingSignals_refines h hcpu ht hmode signal hok).imp_right fun hvirtual =>
            congrArg some hvirtual.symm

theorem loadKernelState_write (mem : Nat → Word) (a : Nat) (kernel : KernelRegs) :
    loadKernelState (ByteMemory.write mem a (kernelWords kernel)) a = kernel := by
  have hwords := ByteMemory.holds_write mem a (kernelWords kernel)
  generalize ByteMemory.write mem a (kernelWords kernel) = m at hwords
  rw [kernelWords, ByteMemory.holds_append, ByteMemory.holds_ofFn, List.length_ofFn] at hwords
  have hpsr : m (a + 8) = kernel.psr := hwords.2 0 (by simp)
  have hlr : m (a + 9) = kernel.lr := hwords.2 1 (by simp)
  rw [loadKernelState, hpsr, hlr, funext hwords.1]

theorem jump_refines {kernel : KernelRegs} (h : s.Sound)
    (hstep : s.step code (.jump kernel) = some s') :
    s'.Sound ∧ VirtualSys.step code s.virtual (.jump kernel) = some s'.virtual := by
  cases hcpu : s.cpu with
  | thread regs control => simp [step, executing, hcpu] at hstep
  | kernel old =>
      have hexec : s.executing = false := by rw [executing, hcpu]
      simp only [step, hexec, Bool.false_eq_true, if_false] at hstep
      simp only [VirtualSys.step, virtual_executing, hexec, Bool.false_eq_true, if_false]
      cases ht : s.threads s.runningThread with
      | none => simp [jumpToThread, ht] at hstep
      | some t =>
          simp only [jumpToThread, ht, Option.ite_none_left_eq_some, Option.some.injEq] at hstep
          replace hstep := hstep.2
          have hmsp := h.msp
          rw [kernelSp, hexec, if_neg Bool.false_ne_true] at hmsp
          have hmem (x : Nat) (hx : x < s.mainStack ∨ s.mainStackEnd ≤ x) : s'.mem x = s.mem x := by
            rw [← hstep]
            refine ByteMemory.write_outside ?_
            rw [kernelWords, List.length_append, List.length_ofFn]
            simp only [List.length_cons, List.length_nil]
            omega
          have hthreads : s'.threads = s.threads := by rw [← hstep]
          have hrunning : s'.runningThread = s.runningThread := by rw [← hstep]
          have hframes (x : Nat) (hx : s.Frames s.runningThread t x) : s'.mem x = s.mem x := by
            obtain ⟨hle, hlt⟩ := (h.threads _ t ht).frames_bounds hx
            have hmain := (h.threads _ t ht).main
            exact hmem x (by omega)
          have hload : loadUserState s'.mem t.stackTop = loadUserState s.mem t.stackTop :=
            loadUserState_congr fun x hle hlt =>
              hframes x (.inr ⟨executed_kernel hcpu _, hle, hlt⟩)
          have hcpu' : s'.cpu = .thread (loadUserState s.mem t.stackTop) t.privilege := by
            rw [← hload, ← hstep]
          have hsp : s'.msp = s.msp - 10 := by rw [← hstep]
          have hchanges : Changes s s' s.runningThread := .of_range h
            (fun v _ => by rw [hthreads])
            (fun v hv => by rw [executed_kernel hcpu, executed_other hcpu' (hrunning ▸ hv)])
            hmem (fun v t _ ht => (h.threads v t ht).main)
            (by rw [← hstep]; exact ⟨rfl, rfl⟩)
            (by
              rw [kernelSp, executing, hcpu', if_pos rfl, hsp, kernelSp, hexec,
                if_neg Bool.false_ne_true]
              omega)
          have hregs : s'.regs s.runningThread t = s.regs s.runningThread t := by
            rw [← hrunning, regs_running hcpu', hrunning, regs_of_none (executed_kernel hcpu _)]
          have hkeeps (x : Nat) (hx : t.Keeps s.mem x) := hframes x (.inl hx)
          have hframed := (h.threads _ t ht).framed
          refine ⟨hchanges.sound h (fun t' ht' => ?_) fun regs' control' hcpu'' => ?_, ?_⟩
          · obtain rfl : t = t' := Option.some.inj (ht.symm.trans (hthreads ▸ ht'))
            refine hchanges.mine h ht rfl rfl ?_ fun _ => ?_
            · rw [hregs]
              exact hframed.congr hkeeps
            · exact (h.threads _ t ht).saved (executed_kernel hcpu _)
          · obtain ⟨rfl, rfl⟩ := Cpu.thread.inj (hcpu'.symm.trans hcpu'')
            exact ⟨loadUserState_plain s.mem t.stackTop, t, by rw [hthreads, hrunning, ht], rfl⟩
          · rw [show s.virtual.runningThread = s.runningThread from rfl, virtual_some ht,
              Option.map_some, hframed.virtual_privilege]
            refine congrArg some (VirtualSys.ext ?_ ?_ hrunning.symm ?_)
            · rw [virtual_cpu_thread hcpu', hsp, ← hstep]
              exact congrArg (VirtualCpu.thread t.privilege) (loadKernelState_write ..).symm
            · rw [← hstep]
              rfl
            · rw [hchanges.virtual_threads, hthreads, ht, Option.map_some, hregs,
                SwitchThread.virtual_congr hkeeps, ← virtual_some ht, Function.update_eq_self]

theorem Sound.executed_none (h : s.Sound) (hnone : s.threads u = none) : s.executed u = none := by
  cases hcpu : s.cpu with
  | kernel kernel => exact executed_kernel hcpu u
  | thread regs control =>
      obtain ⟨-, t, ht, -⟩ := h.cpu regs control hcpu
      exact executed_other hcpu fun hu => Option.some_ne_none t (ht.symm.trans (hu ▸ hnone))

theorem create_starts {new : NewThread} (h : s.Sound) (hok : s.CreateOk new)
    (hstep : s.step code (.create u new) = some s') :
    s'.threads u = some { new.thread with stackTop := new.stackTop - 18 } ∧
    s'.regs u { new.thread with stackTop := new.stackTop - 18 } =
      .initial new.stackTop new.func code.threadReturnHandler new.args := by
  simp only [step, threadCreate, Option.ite_none_left_eq_some, Option.some.injEq] at hstep
  obtain ⟨hnone, hstep⟩ := hstep
  have hexec := h.executed_none (Option.not_isSome_iff_eq_none.mp hnone)
  have hroom := hok.room
  refine ⟨by rw [← hstep]; exact Function.update_self .., ?_⟩
  rw [regs_of_none (by rw [← hstep]; exact hexec), ← hstep]
  exact loadUserState_stackInit (by change 18 ≤ new.stackTop; omega)

theorem create_mem {new : NewThread} {x : Nat} (hok : s.CreateOk new)
    (hstep : s.step code (.create u new) = some s')
    (hx : x < new.stack ∨ new.stackTop ≤ x) : s'.mem x = s.mem x := by
  simp only [step, threadCreate, Option.ite_none_left_eq_some, Option.some.injEq] at hstep
  rw [← hstep.2]
  have hroom := hok.room
  refine stackInit_outside (by change 18 ≤ new.stackTop; omega) ?_
  change x < new.stackTop - 18 ∨ new.stackTop ≤ x
  omega

theorem create_refines {new : NewThread} (h : s.Sound) (hok : s.StepOk (.create u new))
    (hstep : s.step code (.create u new) = some s') :
    s'.Sound ∧ VirtualSys.step code s.virtual (.create u new) = some s'.virtual := by
  obtain ⟨hmine, hregs⟩ := create_starts h hok hstep
  have hinside := hok.inside
  have hmem (x : Nat) (hx : x < new.stack ∨ new.stack + new.stackSize ≤ x) :
      s'.mem x = s.mem x :=
    create_mem hok hstep (hx.imp_right hinside.trans)
  simp only [step, threadCreate, Option.ite_none_left_eq_some, Option.some.injEq] at hstep
  obtain ⟨hnone, hstep⟩ := hstep
  rw [Option.not_isSome_iff_eq_none] at hnone
  have hchanges : Changes s s' u := .of_range h
    (fun v hv => by rw [← hstep]; exact Function.update_of_ne hv ..)
    (fun v _ => by rw [← hstep]; rfl) hmem (fun v t _ ht => hok.apart v t ht)
    (by rw [← hstep]; exact ⟨rfl, rfl⟩) (by rw [← hstep]; rfl)
  refine ⟨hchanges.sound h (fun t' ht' => ?_) fun regs control hcpu => ?_, ?_⟩
  · obtain rfl := Option.some.inj (hmine.symm.trans ht')
    refine ⟨?_, fun _ => ?_, fun w t' hw ht' => ?_, ?_⟩
    · rw [hregs]
      exact ⟨hok.stack_pos, hinside, fun hmode => absurd hmode Bool.false_ne_true,
        fun hne => absurd rfl hne, by simp [NewThread.thread]⟩
    · have hroom := hok.room
      change new.stack ≤ new.stackTop - 18
      omega
    · rw [hchanges.thread w hw] at ht'
      exact (hok.apart w t' ht').symm
    · rw [hchanges.mainStack.1, hchanges.mainStack.2]
      exact hok.main
  · have hcpu' : s.cpu = .thread regs control := by rw [← hcpu, ← hstep]; rfl
    obtain ⟨hplain, t, ht, hcontrol⟩ := h.cpu regs control hcpu'
    have hne : s.runningThread ≠ u := fun hu =>
      Option.some_ne_none t (ht.symm.trans (hu ▸ hnone))
    refine ⟨hplain, t, ?_, hcontrol⟩
    rw [show s'.runningThread = s.runningThread by rw [← hstep]; rfl, hchanges.thread _ hne, ht]
  · have hvirtual : s.virtual.threads u = none := by simp only [virtual, hnone, Option.map_none]
    rw [VirtualSys.step, if_neg (by rw [hvirtual]; exact Bool.false_ne_true)]
    refine congrArg some (VirtualSys.ext ?_ (by rw [← hstep]; rfl) (by rw [← hstep]; rfl) ?_)
    · cases hcpu : s.cpu with
      | kernel kernel =>
          exact (virtual_cpu_kernel hcpu).trans
            (virtual_cpu_kernel (by rw [← hstep]; exact hcpu)).symm
      | thread regs control =>
          have hcpu' : s'.cpu = .thread regs control := by rw [← hstep]; exact hcpu
          have hmsp : s'.msp = s.msp := by rw [← hstep]; rfl
          rw [virtual_cpu_thread hcpu', hmsp,
            h.kernel_congr (by rw [executing, hcpu]) hok.main hmem]
          exact virtual_cpu_thread hcpu
    · rw [hchanges.virtual_threads, hmine, Option.map_some, hregs]
      rfl

theorem delete_refines (h : s.Sound) (hstep : s.step code (.delete u) = some s') :
    s'.Sound ∧ VirtualSys.step code s.virtual (.delete u) = some s'.virtual := by
  simp only [step, Option.ite_none_left_eq_some, Option.some.injEq] at hstep
  obtain ⟨hrunning, rfl⟩ := hstep
  have hchanges : Changes s { s with threads := Function.update s.threads u none } u := {
    thread := fun v hv => Function.update_of_ne hv ..
    executed := fun _ _ => rfl
    frames := fun _ _ _ _ _ _ => rfl
    mainStack := ⟨rfl, rfl⟩
    kernelSp := rfl }
  have hgone : Function.update s.threads u none u = none := Function.update_self ..
  refine ⟨hchanges.sound h (fun t ht => ?_) fun regs control hcpu => ?_, ?_⟩
  · exact absurd (hgone.symm.trans ht) (Option.some_ne_none t).symm
  · obtain ⟨hplain, t, ht, hcontrol⟩ := h.cpu regs control hcpu
    have hne : s.runningThread ≠ u := fun hu =>
      hrunning ⟨show s.executing = true by rw [executing, show s.cpu = _ from hcpu], hu.symm⟩
    exact ⟨hplain, t, (Function.update_of_ne hne ..).trans ht, hcontrol⟩
  · rw [VirtualSys.step, if_neg (by rwa [virtual_executing])]
    refine congrArg some (VirtualSys.ext rfl rfl rfl ?_)
    simp only [hchanges.virtual_threads, hgone, Option.map_none]

theorem Sound.flag (h : s.Sound) (flag : Bool) : Sound { s with syscallFlag := flag } where
  threads v t ht :=
    have hsound := h.threads v t ht
    ⟨hsound.framed, hsound.saved, hsound.apart, hsound.main⟩
  msp := h.msp
  cpu := h.cpu

/-- Every step is one of the machine in which all threads have registers of their own. -/
theorem step_refines {e : SwitchEvent} (h : s.Sound) (hok : s.StepOk e)
    (hstep : s.step code e = some s') :
    s'.Sound ∧ VirtualSys.step code s.virtual e = some s'.virtual := by
  cases e with
  | execute regs writes => exact execute_refines h hok hstep
  | saveRetval => exact saveRetval_refines h hstep
  | svc =>
      simp only [step, svcHandler, Option.map_eq_some_iff] at hstep
      obtain ⟨s₁, hsave, rfl⟩ := hstep
      obtain ⟨hsound, henter⟩ := pendSv_refines h hok hsave
      refine ⟨hsound.flag true, ?_⟩
      rw [VirtualSys.step, henter, Option.map_some]
      rfl
  | pendSv => exact pendSv_refines h hok hstep
  | serve => exact serve_refines h hok hstep
  | schedule u signal => exact schedule_refines h hok hstep
  | jump kernel => exact jump_refines h hstep
  | create u new => exact create_refines h hok hstep
  | delete u => exact delete_refines h hstep

end SwitchSys

end Tenok
