import Tenok.Kernel.ContextSteps

/-!
Runs of the kernel loop. No thread, and not the kernel, notices that they share a processor, and
nothing is written on the stacks where the threads still need what is there.
-/
namespace Tenok

namespace SwitchSys
variable {code : KernelCode} {s s' : SwitchSys} {u v : Tid} {t : SwitchThread} {x : Nat}

/-- From the start on, all threads and the kernel go on with the registers that they had, system
calls are calls and returns, and signals are handled as calls in between. -/
theorem exec_virtual {es : List SwitchEvent} (h : s.Booted)
    (hok : Runs.AllOk StepOk (step code) s es) (hrun : Runs.exec (step code) s es = some s') :
    Runs.exec (VirtualSys.step code) s.virtual es = some s'.virtual :=
  Runs.exec_refines (fun _ _ _ h hok hstep => step_refines h hok hstep) h.sound hok hrun

def idleSys : SwitchSys where
  mem _ := 0#32
  mainStack := 1000
  mainStackEnd := 1064
  msp := 1064
  cpu := .kernel ⟨fun _ => 0#32, 0#32, 0#32⟩
  syscallFlag := false
  runningThread := 0
  threads _ := none

def callRegs : Context where
  r0to3 i := i.val
  r4to11 i := if i.val = 3 then 5#32 else 0#32
  r12 := 0#32
  lr := 0#32
  pc := 0x100#32
  xpsr := initialXpsr
  sp := 150
  fp := none

def callerStart : List SwitchEvent :=
  [.create 1 ⟨100, 100, 200, 0x80#32, 7#32, false⟩, .schedule 1 none,
    .jump ⟨fun _ => 1#32, 2#32, 3#32⟩, .execute callRegs [(170, 9#32)]]

def callerCalls : List SwitchEvent := [.svc, .serve, .jump ⟨fun _ => 4#32, 5#32, 6#32⟩]

def callCode : KernelCode := ⟨fun n => n, 0x200#32, 0x210#32, 0x220#32⟩

def callerSys : SwitchSys := ((Runs.exec (step callCode) idleSys callerStart).get (by decide))

theorem idleSys_booted : idleSys.Booted := ⟨rfl, fun _ => rfl, by decide⟩

theorem callerSys_eq : Runs.exec (step callCode) idleSys callerStart = some callerSys :=
  (Option.some_get _).symm

theorem callerStart_ok : Runs.AllOk StepOk (step callCode) idleSys callerStart := by
  refine ⟨?_, fun t ht => ?_⟩
  · exact ⟨by decide, by decide, by decide, fun v t ht => absurd ht (by simp [idleSys]), by decide⟩
  obtain rfl := Option.some.inj ht
  refine ⟨trivial, fun t ht => ?_⟩
  obtain rfl := Option.some.inj ht
  refine ⟨trivial, fun t ht => ?_⟩
  obtain rfl := Option.some.inj ht
  refine ⟨⟨by decide, fun t ht => ?_, fun w hw => ?_⟩, fun t ht => trivial⟩
  · obtain rfl := Option.some.inj ht
    decide
  · obtain rfl := List.mem_singleton.mp hw
    rintro (hmain | ⟨v, t, ht, hx⟩)
    · exact absurd hmain (by decide)
    · by_cases hv : v = 1
      · subst hv
        obtain rfl := Option.some.inj ht
        rcases hx with (⟨hmode, -⟩ | ⟨hne, -⟩) | ⟨hexec, -⟩
        · exact Bool.noConfusion hmode
        · exact hne rfl
        · exact Option.some_ne_none _ hexec
      · exact Option.some_ne_none t (ht.symm.trans (Function.update_of_ne hv ..))

theorem callerCalls_ok : Runs.AllOk StepOk (step callCode) callerSys callerCalls := by
  refine ⟨fun t ht regs hregs => ?_, fun t ht => ?_⟩
  · obtain rfl := Option.some.inj ht
    obtain rfl := Option.some.inj hregs
    decide
  obtain rfl := Option.some.inj ht
  refine ⟨fun t ht => ?_, fun t ht => ?_⟩
  · obtain rfl := Option.some.inj ht
    decide
  obtain rfl := Option.some.inj ht
  exact ⟨trivial, fun t ht => trivial⟩

theorem exec_virtual_syscall : ∃ s', Runs.exec (step callCode) idleSys (callerStart ++ callerCalls) = some s' ∧
    Runs.exec (VirtualSys.step callCode) idleSys.virtual (callerStart ++ callerCalls) =
      some s'.virtual := by
  have hrun : (Runs.exec (step callCode) idleSys (callerStart ++ callerCalls)).isSome := by decide
  obtain ⟨s', hs'⟩ := Option.isSome_iff_exists.mp hrun
  exact ⟨s', hs', exec_virtual idleSys_booted
    (Runs.allOk_append callerSys_eq callerStart_ok callerCalls_ok) hs'⟩

/-- What is not on a stack, or on one above a stack pointer. -/
structure Live (s : SwitchSys) (x : Nat) : Prop where
  main : x < s.mainStack ∨ s.mainStackEnd ≤ x
  thread : ∀ v t, s.threads v = some t → t.stack ≤ x → x < t.stackEnd →
    ((s.regs v t).sp ≤ x ∧ x < t.limit) ∨
    (t.syscallMode = true ∧ (loadUserState s.mem t.syscallStackTop).sp ≤ x ∧ x < t.outer) ∨
    (t.stackTopPreserved ≠ 0 ∧ (loadUserState s.mem t.stackTopPreserved).sp ≤ x)

theorem Live.of_sp (h : s.Sound) (hlive : s.Live x) (ht : s.threads v = some t) :
    x < t.stack ∨ (s.regs v t).sp ≤ x := by
  have hframed := (h.threads v t ht).framed
  have hbelow := hframed.below
  have hlimit := hframed.limit_le
  have houter := hframed.outer_le
  by_cases hx : t.stack ≤ x ∧ x < t.stackEnd
  · rcases hlive.thread v t ht hx.1 hx.2 with ⟨hsp, -⟩ | ⟨hmode, hsp, -⟩ | ⟨hne, hsp⟩
    · exact .inr hsp
    · have hload := loadUserState_sp s.mem t.syscallStackTop
      rw [SwitchThread.limit, if_pos hmode] at hbelow
      omega
    · have hload := loadUserState_sp s.mem t.stackTopPreserved
      rw [SwitchThread.outer, if_neg hne] at hlimit
      omega
  · omega

theorem Live.of_caller (h : s.Sound) (hlive : s.Live x) (ht : s.threads v = some t)
    (hmode : t.syscallMode = true) :
    x < t.syscallStackTop ∨ (loadUserState s.mem t.syscallStackTop).sp ≤ x := by
  have hframed := (h.threads v t ht).framed
  obtain ⟨hstack, hend, -⟩ := hframed.caller hmode
  have houter := hframed.outer_le
  by_cases hx : t.stack ≤ x ∧ x < t.stackEnd
  · rcases hlive.thread v t ht hx.1 hx.2 with ⟨-, hlimit⟩ | ⟨-, hsp, -⟩ | ⟨hne, hsp⟩
    · rw [SwitchThread.limit, if_pos hmode] at hlimit
      exact .inl hlimit
    · exact .inr hsp
    · have hload := loadUserState_sp s.mem t.stackTopPreserved
      rw [SwitchThread.outer, if_neg hne] at hend
      omega
  · omega

/-- Only the kernel writes without such an event. -/
def Writes (x : Nat) : SwitchEvent → Prop
  | .execute _ writes => ∃ w ∈ writes, w.1 = x
  | _ => False

theorem stage_live {kernel : KernelRegs} {func returnHandler : Word} {args : Fin 4 → Word}
    {t' : SwitchThread} (h : s.Sound) (hlive : s.Live x) (hcpu : s.cpu = .kernel kernel)
    (ht : s.threads u = some t) (hroom : t.stack + 18 ≤ t.stackTop)
    (htop : t'.stackTop = t.stackTop) (flag : Bool) (running : Tid) :
    (stage { s with syscallFlag := flag, runningThread := running } u t' func returnHandler
      args).mem x = s.mem x := by
  have hsp := loadUserState_sp s.mem t.stackTop
  have hx := hlive.of_sp h ht
  rw [regs_of_none (executed_kernel hcpu u)] at hx
  exact stackInit_outside (by omega) (by omega)

theorem pendSv_live (h : s.Sound) (hok : s.StepOk .pendSv) (hstep : s.pendSvHandler = some s')
    (hlive : s.Live x) : s'.mem x = s.mem x := by
  cases hcpu : s.cpu with
  | kernel kernel => simp [pendSvHandler, hcpu] at hstep
  | thread regs control =>
      obtain ⟨-, t, ht, -⟩ := h.cpu regs control hcpu
      simp only [pendSvHandler, hcpu, ht, Option.some.injEq] at hstep
      have hroom : t.stack + regs.frameSize ≤ regs.sp := hok t ht regs (executed_running hcpu)
      have htop : regs.frameTop + regs.frameSize = regs.sp := frameTop_add (by omega)
      have hx := hlive.of_sp h ht
      rw [regs_running hcpu] at hx
      rw [← hstep]
      exact saveUserState_outside (by omega) (by omega)

theorem serve_live (h : s.Sound) (hok : s.StepOk .serve) (hstep : s.step code .serve = some s')
    (hlive : s.Live x) : s'.mem x = s.mem x := by
  cases hcpu : s.cpu with
  | thread regs control => simp [step, executing, hcpu] at hstep
  | kernel kernel =>
      have hexec : s.executing = false := by rw [executing, hcpu]
      simp only [step, hexec, Bool.false_eq_true, if_false] at hstep
      cases hcall : s.syscallFlag with
      | false =>
          rw [hcall, if_neg Bool.false_ne_true, Option.some.injEq] at hstep
          rw [← hstep]
      | true =>
          rw [hcall, if_pos rfl] at hstep
          cases ht : s.threads s.runningThread with
          | none => simp [syscallHandler, ht] at hstep
          | some t =>
              have hsetup (num : Nat) :
                  (setupSyscall code { s with syscallFlag := false } t num).mem x = s.mem x := by
                rw [setupSyscall]
                split
                · rfl
                · exact stage_live h hlive hcpu ht (hok t ht) (by rfl) false s.runningThread
              simp only [syscallHandler, ht] at hstep
              split at hstep
              · rw [← Option.some.inj hstep]
              split at hstep
              · rw [← Option.some.inj (Option.ite_none_right_eq_some.mp hstep).2]
                rfl
              split at hstep
              · rw [← Option.some.inj (Option.ite_none_right_eq_some.mp hstep).2]
                rfl
              rw [← Option.some.inj (Option.ite_none_right_eq_some.mp hstep).2]
              exact hsetup _

theorem schedule_live {signal : Option StagedHandlerInfo} (h : s.Sound)
    (hok : s.StepOk (.schedule u signal)) (hstep : s.step code (.schedule u signal) = some s')
    (hlive : s.Live x) : s'.mem x = s.mem x := by
  cases hcpu : s.cpu with
  | thread regs control => simp [step, executing, hcpu] at hstep
  | kernel kernel =>
      have hexec : s.executing = false := by rw [executing, hcpu]
      simp only [step, hexec, Bool.false_eq_true, if_false] at hstep
      rw [schedule, Option.map_eq_some_iff] at hstep
      obtain ⟨t, ht, rfl⟩ := hstep
      split
      · rfl
      · cases signal with
        | none => rfl
        | some info =>
            rw [checkPendingSignals]
            split
            · rfl
            · exact stage_live h hlive hcpu ht (hok t ht) (by rfl) s.syscallFlag u

/-- A step writes nowhere else but below the stack pointers, if it is not the thread that writes. -/
theorem step_live {e : SwitchEvent} (h : s.Sound) (hok : s.StepOk e)
    (hstep : s.step code e = some s') (hlive : s.Live x) (hlive' : s'.Live x) (hx : ¬ Writes x e) :
    s'.mem x = s.mem x := by
  cases e with
  | execute regs writes =>
      cases hcpu : s.cpu with
      | kernel kernel => simp [step, hcpu] at hstep
      | thread old control =>
          simp only [step, hcpu, Option.some.injEq] at hstep
          rw [← hstep]
          exact foldl_update_of_ne fun w hw heq => hx ⟨w, hw, heq⟩
  | saveRetval =>
      cases hcpu : s.cpu with
      | kernel kernel => simp [step, hcpu] at hstep
      | thread regs control =>
          obtain ⟨-, t, ht, -⟩ := h.cpu regs control hcpu
          simp only [step, hcpu, ht, Option.ite_none_right_eq_some, Option.some.injEq] at hstep
          obtain ⟨hmode, rfl⟩ := hstep
          obtain ⟨hle, hlt⟩ := (h.threads _ t ht).framed.syscallArgs_lt hmode
          have hcaller := hlive.of_caller h ht hmode
          exact Function.update_of_ne (by omega) ..
  | svc =>
      simp only [step, svcHandler, Option.map_eq_some_iff] at hstep
      obtain ⟨s₁, hsave, rfl⟩ := hstep
      have hmem : s₁.mem x = s.mem x := pendSv_live h hok hsave hlive
      exact hmem
  | pendSv => exact pendSv_live h hok hstep hlive
  | serve => exact serve_live h hok hstep hlive
  | schedule u signal => exact schedule_live h hok hstep hlive
  | jump kernel =>
      cases hcpu : s.cpu with
      | thread regs control => simp [step, executing, hcpu] at hstep
      | kernel old =>
          have hexec : s.executing = false := by rw [executing, hcpu]
          simp only [step, hexec, Bool.false_eq_true, if_false] at hstep
          cases ht : s.threads s.runningThread with
          | none => simp [jumpToThread, ht] at hstep
          | some t =>
              simp only [jumpToThread, ht, Option.ite_none_left_eq_some, Option.some.injEq] at hstep
              have hmsp := h.msp
              have hmain := hlive.main
              rw [kernelSp, hexec, if_neg Bool.false_ne_true] at hmsp
              rw [← hstep.2]
              refine ByteMemory.write_outside ?_
              rw [kernelWords, List.length_append, List.length_ofFn]
              simp only [List.length_cons, List.length_nil]
              omega
  | create u new =>
      obtain ⟨hmine, hregs⟩ := create_starts h hok hstep
      have hsound := (step_refines h hok hstep).1
      have hx := hlive'.of_sp hsound hmine
      rw [hregs] at hx
      exact create_mem hok hstep hx
  | delete u =>
      simp only [step, Option.ite_none_left_eq_some, Option.some.injEq] at hstep
      rw [← hstep.2]

/-- In every run, what is live is changed by the writes of the threads only. -/
theorem exec_live {es es' : List SwitchEvent} {s₁ : SwitchSys} (h : s.Booted)
    (hok : Runs.AllOk StepOk (step code) s es) (hrun : Runs.exec (step code) s es = some s₁)
    (hok' : Runs.AllOk StepOk (step code) s₁ es') (hrun' : Runs.exec (step code) s₁ es' = some s')
    (hlive : ∀ n u, Runs.exec (step code) s₁ (es'.take n) = some u → u.Live x)
    (hwrites : ∀ e ∈ es', ¬ Writes x e) : s'.mem x = s₁.mem x := by
  have hsound : s₁.Sound := Runs.exec_invariant
    (fun _ _ _ h hok hstep => (step_refines h hok hstep).1) h.sound hok hrun
  have hallowed := Runs.allOk_and hok' (Runs.allOk_of_forall fun e he _ => hwrites e he)
  refine Runs.exec_constant (m := fun s => s.mem x) ?_ hsound hallowed hlive hrun'
  intro s e t h hok hstep hlive hlive'
  exact ⟨(step_refines h hok.1 hstep).1, step_live h hok.1 hstep hlive hlive' hok.2⟩

theorem live_caller {s : SwitchSys} {t : SwitchThread} (hmain : s.mainStack = 1000)
    (hother : ∀ v, v ≠ 1 → s.threads v = none) (ht : s.threads 1 = some t)
    (hx : ((s.regs 1 t).sp ≤ 170 ∧ 170 < t.limit) ∨ (t.syscallMode = true ∧
      (loadUserState s.mem t.syscallStackTop).sp ≤ 170 ∧ 170 < t.outer)) : s.Live 170 := by
  refine ⟨.inl (by omega), fun v t' hv _ _ => ?_⟩
  by_cases h1 : v = 1
  · subst h1
    obtain rfl := Option.some.inj (ht.symm.trans hv)
    exact hx.imp_right .inl
  · rw [hother v h1] at hv
    exact absurd hv.symm (Option.some_ne_none t')

theorem callerCalls_live (n : Nat) (u : SwitchSys)
    (hu : Runs.exec (step callCode) callerSys (callerCalls.take n) = some u) : u.Live 170 := by
  have hother (v : Tid) (hv : v ≠ 1) : callerSys.threads v = none := Function.update_of_ne hv ..
  match n with
  | 0 =>
      obtain rfl := Option.some.inj hu
      exact live_caller rfl hother rfl (.inl (by decide))
  | 1 =>
      obtain rfl := Option.some.inj hu
      refine live_caller rfl (fun v hv => ?_) rfl (.inl (by decide))
      exact (Function.update_of_ne hv ..).trans (hother v hv)
  | 2 =>
      obtain rfl := Option.some.inj hu
      refine live_caller rfl (fun v hv => ?_) rfl (.inr (by decide))
      exact (Function.update_of_ne hv ..).trans ((Function.update_of_ne hv ..).trans (hother v hv))
  | n + 3 =>
      rw [List.take_of_length_le (Nat.le_add_left 3 n)] at hu
      obtain rfl := Option.some.inj hu
      refine live_caller rfl (fun v hv => ?_) rfl (.inr (by decide))
      exact (Function.update_of_ne hv ..).trans ((Function.update_of_ne hv ..).trans (hother v hv))

theorem exec_live_syscall : ∃ s', Runs.exec (step callCode) callerSys callerCalls = some s' ∧
    s'.mem 170 = 9#32 := by
  have hrun : (Runs.exec (step callCode) callerSys callerCalls).isSome := by decide
  obtain ⟨s', hs'⟩ := Option.isSome_iff_exists.mp hrun
  have hsame : s'.mem 170 = callerSys.mem 170 := exec_live idleSys_booted callerStart_ok
    callerSys_eq callerCalls_ok hs' callerCalls_live (by simp [callerCalls, Writes])
  exact ⟨s', hs', hsame⟩

end SwitchSys

end Tenok
