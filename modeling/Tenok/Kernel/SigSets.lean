import Mathlib.Data.Set.Insert
import Tenok.Common.Bitops
import Tenok.Kernel.Syscalls
import Tenok.Lib.Runs

/-!
The signal sets of `kernel/signal.c`: a set is a word, and every signal that is defined has a bit.
-/
namespace Tenok

abbrev SigSet := Word

namespace Signal

def signum : Signal → Int
  | usr1 => 10
  | usr2 => 12
  | poll => 29
  | stop => 19
  | cont => 18
  | kill => 9

def bit : Signal → Nat
  | usr1 => 0
  | usr2 => 1
  | poll => 2
  | stop => 3
  | cont => 4
  | kill => 5

def all : List Signal := [usr1, usr2, poll, stop, cont, kill]

end Signal

def isSignalDefined (signum : Int) : Bool :=
  decide (signum = 10 ∨ signum = 12 ∨ signum = 29 ∨ signum = 19 ∨ signum = 18 ∨ signum = 9)

def sig2bit (signum : Int) : SigSet :=
  if signum = 10 then 1#32 <<< 0
  else if signum = 12 then 1#32 <<< 1
  else if signum = 29 then 1#32 <<< 2
  else if signum = 19 then 1#32 <<< 3
  else if signum = 18 then 1#32 <<< 4
  else if signum = 9 then 1#32 <<< 5
  else 0#32

inductive SigSetCall
  | sigemptyset
  | sigfillset
  | sigaddset (signum : Int)
  | sigdelset (signum : Int)
  deriving DecidableEq, Repr

def SigSetCall.run (set : SigSet) : SigSetCall → SigSet × Except Errno Unit
  | sigemptyset => (0#32, .ok ())
  | sigfillset => (0xffffffff#32, .ok ())
  | sigaddset signum =>
      if isSignalDefined signum then (set ||| sig2bit signum, .ok ()) else (set, .error .einval)
  | sigdelset signum =>
      if isSignalDefined signum then (set &&& sig2bit signum, .ok ()) else (set, .error .einval)

/-- A member is reported by 0. -/
def sigismember (set : SigSet) (signum : Int) : Except Errno Unit :=
  if set &&& sig2bit signum ≠ 0#32 then .ok () else .error .einval

def sigwaitInvalidMask : SigSet :=
  ~~~(sig2bit 10 ||| sig2bit 12 ||| sig2bit 29 ||| sig2bit 19 ||| sig2bit 18 ||| sig2bit 9)

def sigwaitSet (set : SigSet) : Option (List Signal) :=
  if set &&& sigwaitInvalidMask ≠ 0#32 then none
  else some (Signal.all.filter fun sig => decide (set &&& sig2bit sig.signum ≠ 0#32))

/-- A set and the signals that belong to it by the calls so far. -/
structure SigSetRun where
  set : SigSet
  members : Set Signal

namespace SigSetRun

def membersAfter (members : Set Signal) : SigSetCall → Set Signal
  | .sigemptyset => ∅
  | .sigfillset => Set.univ
  | .sigaddset signum => members ∪ {sig | sig.signum = signum}
  | .sigdelset signum => members \ {sig | sig.signum = signum}

def step (s : SigSetRun) (call : SigSetCall) : Option SigSetRun :=
  some ⟨(call.run s.set).1, membersAfter s.members call⟩

def start : SigSetRun := ⟨0#32, ∅⟩

/-- The set behaves as the set of its members. -/
structure Behaves (s : SigSetRun) : Prop where
  member : ∀ sig : Signal, sigismember s.set sig.signum = .ok () ↔ sig ∈ s.members
  undefined : ∀ signum, isSignalDefined signum = false →
    (SigSetCall.sigaddset signum).run s.set = (s.set, .error .einval) ∧
      (SigSetCall.sigdelset signum).run s.set = (s.set, .error .einval) ∧
      sigismember s.set signum = .error .einval
  accepted : ∀ k : Kernel, (k.sysSigwait (sigwaitSet s.set)).2 = .ok ()

/-- The set is not filled, and a signal is deleted from the empty set only. -/
def CallOk (s : SigSetRun) : SigSetCall → Prop
  | .sigemptyset | .sigaddset _ => True
  | .sigfillset => False
  | .sigdelset signum => isSignalDefined signum = true → s.members = ∅

end SigSetRun

/-! ### The bits of a set -/

section Bits
variable {set : SigSet} {sig : Signal} {signum : Int}

theorem einval_ne_ok : (.error .einval : Except Errno Unit) ≠ .ok () := by
  intro h
  cases h

theorem Signal.signum_injective {sig' : Signal} (h : sig.signum = sig'.signum) : sig = sig' := by
  cases sig <;> cases sig' <;> first | rfl | cases h

theorem isSignalDefined_iff : isSignalDefined signum = true ↔ ∃ sig : Signal, sig.signum = signum := by
  rw [isSignalDefined, decide_eq_true_eq]
  constructor
  · rintro (rfl | rfl | rfl | rfl | rfl | rfl)
    exacts [⟨.usr1, rfl⟩, ⟨.usr2, rfl⟩, ⟨.poll, rfl⟩, ⟨.stop, rfl⟩, ⟨.cont, rfl⟩, ⟨.kill, rfl⟩]
  · rintro ⟨sig, rfl⟩
    cases sig <;> decide

theorem sig2bit_signum (sig : Signal) : sig2bit sig.signum = 1#32 <<< sig.bit := by
  cases sig <;> rfl

theorem Signal.bit_lt (sig : Signal) : sig.bit < 6 := by
  cases sig <;> decide

theorem Signal.bit_injective {sig' : Signal} (h : sig.bit = sig'.bit) : sig = sig' := by
  cases sig <;> cases sig' <;> first | rfl | cases h

theorem getLsbD_sig2bit (sig : Signal) {i : Nat} (hi : i < 32) :
    (sig2bit sig.signum).getLsbD i = decide (i = sig.bit) := by
  rw [sig2bit_signum]
  exact getLsbD_one_shiftLeft sig.bit i hi

theorem sig2bit_undefined (h : isSignalDefined signum = false) : sig2bit signum = 0#32 := by
  rw [isSignalDefined, decide_eq_false_iff_not, not_or, not_or, not_or, not_or, not_or] at h
  obtain ⟨h10, h12, h29, h19, h18, h9⟩ := h
  rw [sig2bit, if_neg h10, if_neg h12, if_neg h29, if_neg h19, if_neg h18, if_neg h9]

theorem sigismember_iff : sigismember set sig.signum = .ok () ↔ set.getLsbD sig.bit = true := by
  have hbit : sig.bit < 32 := Nat.lt_trans sig.bit_lt (by decide)
  have hne : set &&& sig2bit sig.signum ≠ 0#32 ↔ set.getLsbD sig.bit = true := by
    constructor
    · intro hne
      by_contra hclear
      refine hne (BitVec.eq_of_getLsbD_eq fun i hi => ?_)
      rw [BitVec.getLsbD_and, getLsbD_sig2bit sig hi, BitVec.getLsbD_zero]
      by_cases heq : i = sig.bit
      · rw [heq, Bool.eq_false_of_not_eq_true hclear, Bool.false_and]
      · rw [decide_eq_false heq, Bool.and_false]
    · intro hset hzero
      have hzero' : (set &&& sig2bit sig.signum).getLsbD sig.bit = false := by
        rw [hzero, BitVec.getLsbD_zero]
      rw [BitVec.getLsbD_and, getLsbD_sig2bit sig hbit, hset, decide_eq_true rfl] at hzero'
      cases hzero'
  rw [sigismember, ← hne]
  split
  next h => exact iff_of_true rfl h
  next h => exact iff_of_false einval_ne_ok h

theorem sigismember_undefined (h : isSignalDefined signum = false) :
    sigismember set signum = .error .einval := by
  rw [sigismember, sig2bit_undefined h, BitVec.and_zero]
  exact if_neg fun hne => hne rfl

theorem sysSigwait_ok_iff (k : Kernel) :
    (k.sysSigwait (sigwaitSet set)).2 = .ok () ↔ set &&& sigwaitInvalidMask = 0#32 := by
  rw [sigwaitSet]
  split
  next h => exact iff_of_false einval_ne_ok h
  next h => exact iff_of_true rfl (not_not.mp h)

theorem sig2bit_valid (sig : Signal) : sig2bit sig.signum &&& sigwaitInvalidMask = 0#32 := by
  cases sig <;> decide

end Bits

/-! ### Runs of calls -/

namespace SigSetRun
variable {s t : SigSetRun} {call : SigSetCall} {signum : Int}

theorem behaves_iff : s.Behaves ↔
    (∀ sig : Signal, s.set.getLsbD sig.bit = true ↔ sig ∈ s.members) ∧
      s.set &&& sigwaitInvalidMask = 0#32 := by
  constructor
  · intro h
    exact ⟨fun sig => sigismember_iff.symm.trans (h.member sig),
      (sysSigwait_ok_iff Kernel.schedStart).mp (h.accepted Kernel.schedStart)⟩
  · rintro ⟨hmember, hvalid⟩
    refine ⟨fun sig => sigismember_iff.trans (hmember sig), fun signum h => ?_, fun k =>
      (sysSigwait_ok_iff k).mpr hvalid⟩
    have hneg : ¬ isSignalDefined signum = true := Bool.eq_false_iff.mp h
    exact ⟨if_neg hneg, if_neg hneg, sigismember_undefined h⟩

theorem start_behaves : start.Behaves :=
  behaves_iff.mpr ⟨fun _ => iff_of_false (by rw [start, BitVec.getLsbD_zero]; decide)
    (Set.notMem_empty _), rfl⟩

theorem members_undefined {members : Set Signal} (h : isSignalDefined signum = false) :
    members ∪ {sig | sig.signum = signum} = members ∧
      members \ {sig | sig.signum = signum} = members := by
  have hempty : {sig : Signal | sig.signum = signum} = ∅ := by
    refine Set.eq_empty_of_forall_notMem fun sig hsig => ?_
    rw [isSignalDefined_iff.mpr ⟨sig, hsig⟩] at h
    cases h
  rw [hempty]
  exact ⟨Set.union_empty members, Set.ext fun sig => and_iff_left (Set.notMem_empty sig)⟩

theorem getLsbD_bit (set : SigSet) (sig sig' : Signal) :
    (set ||| sig2bit sig.signum).getLsbD sig'.bit =
        (set.getLsbD sig'.bit || decide (sig' = sig)) ∧
      (set &&& sig2bit sig.signum).getLsbD sig'.bit =
        (set.getLsbD sig'.bit && decide (sig' = sig)) := by
  have hbit : sig'.bit < 32 := Nat.lt_trans sig'.bit_lt (by decide)
  have hdecide : decide (sig'.bit = sig.bit) = decide (sig' = sig) :=
    decide_eq_decide.mpr ⟨Signal.bit_injective, fun h => h ▸ rfl⟩
  rw [BitVec.getLsbD_or, BitVec.getLsbD_and, getLsbD_sig2bit sig hbit, hdecide]
  exact ⟨rfl, rfl⟩

theorem add_behaves (hs : s.Behaves) (sig : Signal) :
    Behaves ⟨s.set ||| sig2bit sig.signum, s.members ∪ {sig' | sig'.signum = sig.signum}⟩ := by
  obtain ⟨hmember, hvalid⟩ := behaves_iff.mp hs
  refine behaves_iff.mpr ⟨fun sig' => ?_, ?_⟩
  · rw [(getLsbD_bit s.set sig sig').1, Bool.or_eq_true, decide_eq_true_eq, hmember sig']
    exact or_congr_right ⟨fun h => congrArg Signal.signum h, Signal.signum_injective⟩
  · rw [BitVec.and_or_distrib_right, hvalid, sig2bit_valid]
    rfl

theorem del_behaves_iff (hs : s.Behaves) (sig : Signal) :
    Behaves ⟨s.set &&& sig2bit sig.signum, s.members \ {sig' | sig'.signum = sig.signum}⟩ ↔
      s.members = ∅ := by
  obtain ⟨hmember, hvalid⟩ := behaves_iff.mp hs
  have hdiff : ∀ sig', sig' ∈ s.members \ {sig' | sig'.signum = sig.signum} ↔
      sig' ∈ s.members ∧ sig' ≠ sig := fun sig' =>
    and_congr_right fun _ => not_congr ⟨Signal.signum_injective, fun h => congrArg Signal.signum h⟩
  rw [behaves_iff]
  constructor
  · rintro ⟨hafter, -⟩
    have hkept : ∀ sig', sig' ∈ s.members ∧ sig' = sig ↔ sig' ∈ s.members ∧ sig' ≠ sig := by
      intro sig'
      have h := hafter sig'
      rwa [(getLsbD_bit s.set sig sig').2, Bool.and_eq_true, decide_eq_true_eq, hmember sig',
        hdiff] at h
    refine Set.eq_empty_of_forall_notMem fun sig' hsig' => ?_
    by_cases heq : sig' = sig
    · exact ((hkept sig').mp ⟨hsig', heq⟩).2 heq
    · exact heq ((hkept sig').mpr ⟨hsig', heq⟩).2
  · intro hempty
    refine ⟨fun sig' => ?_, ?_⟩
    · have hnot : sig' ∉ s.members := hempty ▸ Set.notMem_empty sig'
      rw [(getLsbD_bit s.set sig sig').2, Bool.and_eq_true, hmember sig', hdiff]
      exact iff_of_false (fun h => hnot h.1) fun h => hnot h.1
    · rw [BitVec.and_assoc, sig2bit_valid]
      exact BitVec.and_zero

theorem callOk_iff (hs : s.Behaves) (hstep : s.step call = some t) : s.CallOk call ↔ t.Behaves := by
  obtain rfl := Option.some.inj hstep
  cases call with
  | sigemptyset => exact iff_of_true trivial start_behaves
  | sigfillset =>
      refine iff_of_false id fun h => ?_
      have hinvalid : 0xffffffff#32 &&& sigwaitInvalidMask ≠ 0#32 := by decide
      exact hinvalid (behaves_iff.mp h).2
  | sigaddset signum =>
      refine iff_of_true trivial ?_
      cases hdef : isSignalDefined signum with
      | false =>
          rw [SigSetCall.run, hdef, membersAfter, (members_undefined hdef).1]
          exact hs
      | true =>
          obtain ⟨sig, rfl⟩ := isSignalDefined_iff.mp hdef
          rw [SigSetCall.run, if_pos hdef]
          exact add_behaves hs sig
  | sigdelset signum =>
      cases hdef : isSignalDefined signum with
      | false =>
          rw [SigSetCall.run, hdef, membersAfter, (members_undefined hdef).2]
          refine iff_of_true (fun h => ?_) hs
          rw [hdef] at h
          cases h
      | true =>
          obtain ⟨sig, rfl⟩ := isSignalDefined_iff.mp hdef
          rw [SigSetCall.run, if_pos hdef, membersAfter, del_behaves_iff hs sig, CallOk]
          exact ⟨fun h => h hdef, fun h _ => h⟩

/-- The set behaves after every call if and only if no call is one of the two that do not keep it. -/
theorem sigSet_behaves_iff (calls : List SigSetCall) : Runs.AllOk CallOk step start calls ↔
    ∀ n t, Runs.exec step start (calls.take n) = some t → t.Behaves := by
  obtain ⟨t, ht⟩ := Runs.exec_total (fun s call => ⟨_, rfl⟩) start calls
  exact Runs.allOk_iff_forall_take (I := fun _ => True) (fun _ _ _ _ _ => trivial)
    (fun _ _ _ _ hs hstep => callOk_iff hs hstep) trivial start_behaves ht

/-- `SIGUSR2` is deleted from a set with `SIGUSR1`; and `sigwait` does not take a full set. -/
theorem sigSet_not_behaves :
    (∃ t, Runs.exec step start [.sigaddset 10, .sigdelset 12] = some t ∧ ¬ t.Behaves) ∧
      ∃ t, Runs.exec step start [.sigfillset] = some t ∧ ¬ t.Behaves := by
  refine ⟨⟨_, rfl, fun h => ?_⟩, _, rfl, fun h => ?_⟩
  · have hmember : Signal.usr1 ∈ ((∅ ∪ {sig | sig.signum = 10}) \ {sig | sig.signum = 12} : Set Signal) :=
      ⟨.inr rfl, by decide⟩
    exact absurd ((h.member .usr1).mpr hmember) (by decide)
  · exact absurd (behaves_iff.mp h).2 (by decide)

end SigSetRun

end Tenok
