import Mathlib.Data.Nat.Find
import Tenok.Common.CString
import Tenok.Kernel.Thread

/-!
`sys_thread_info`, with which a thread goes through the table of threads while others come and go.
The cursor is the pointer to a slot, here its index.
-/
namespace Tenok

def threadNameMax : Nat := 50

/-- What `sys_thread_info` reads of a thread; `pid` is that of its task. -/
structure ThreadSlot where
  pid : Pid
  tid : Nat
  priority : Priority
  kernelThread : Bool
  stack : Word
  stackTop : Word
  stackSize : Word
  name : List Byte
  status : ThreadStatus

structure ThreadStat where
  pid : Pid
  tid : Nat
  priority : Priority
  status : String
  kernelThread : Bool
  stackUsage : Word
  stackSize : Word
  name : List Byte

/-- The table as a call finds it. The thread that makes the call is alive. -/
structure ThreadTable where
  bitmapThreads : Bitmap
  threads : Nat → ThreadSlot
  runningThread : Nat
  length_bitmap : bitmapThreads.length = 2
  tid_eq : ∀ t, bitmapGetBit bitmapThreads t = some 1#32 → (threads t).tid = t
  running_alive : bitmapGetBit bitmapThreads runningThread = some 1#32

namespace ThreadTable

def Alive (s : ThreadTable) (t : Nat) : Prop := bitmapGetBit s.bitmapThreads t = some 1#32

instance (s : ThreadTable) (t : Nat) : Decidable (s.Alive t) := inferInstanceAs (Decidable (_ = _))

def threadInfoFindNext (s : ThreadTable) (curr : Nat) : Option Nat :=
  (List.range' (curr + 1) (threadMax - (curr + 1))).find? fun i => s.Alive i

def statusLetter : ThreadStatus → String
  | .wait => "S"
  | .suspended => "T"
  | .ready | .running => "R"
  | .terminated => "?"

def stat (thread : ThreadSlot) : ThreadStat where
  pid := thread.pid
  tid := thread.tid
  priority := thread.priority
  status := statusLetter thread.status
  kernelThread := thread.kernelThread
  stackUsage := thread.stack + thread.stackSize - thread.stackTop
  stackSize := thread.stackSize
  name := strncpy thread.name threadNameMax

/-- With the contents of `info` and the pointer that is returned; `none` is an access outside of the
bitmap. -/
def sysThreadInfo (s : ThreadTable) (info : ThreadStat) (next : Option Nat) :
    Option (ThreadStat × Option Nat) :=
  let report (thread : Nat) := (stat (s.threads thread), s.threadInfoFindNext thread)
  match next with
  | none => (findFirstBit s.bitmapThreads threadMax).map report
  | some thread =>
      if s.Alive thread then some (report thread)
      else match s.threadInfoFindNext thread with
        | none => some (info, none)
        | some thread => some (report thread)

def aliveFrom (s : ThreadTable) (t : Nat) : Option Nat :=
  (List.range' t (threadMax - t)).find? fun i => s.Alive i

section Search
variable {s : ThreadTable} {info : ThreadStat} {next : Option Nat} {t u : Nat}

theorem Alive.lt_max (h : s.Alive t) : t < threadMax := by
  by_contra hge
  have hlen := s.length_bitmap
  have hnone := bitmapGetBit_eq_none s.bitmapThreads t (by rw [hlen]; exact Nat.le_of_not_lt hge)
  rw [Alive, hnone] at h
  cases h

theorem aliveFrom_eq_none : s.aliveFrom t = none ↔ ∀ u, t ≤ u → ¬ s.Alive u := by
  simp only [aliveFrom, List.find?_eq_none, List.mem_range'_1, decide_eq_true_eq]
  refine ⟨fun h u hu halive => ?_, fun h u hu => h u hu.1⟩
  have hlt := halive.lt_max
  exact h u ⟨hu, by omega⟩ halive

theorem aliveFrom_eq_some :
    s.aliveFrom t = some u ↔ t ≤ u ∧ s.Alive u ∧ ∀ v, t ≤ v → v < u → ¬ s.Alive v := by
  simp only [aliveFrom, List.find?_range'_eq_some, List.mem_range'_1, decide_eq_true_eq,
    Bool.not_eq_true', decide_eq_false_iff_not]
  constructor
  · rintro ⟨halive, ⟨hle, -⟩, hbefore⟩
    exact ⟨hle, halive, hbefore⟩
  · rintro ⟨hle, halive, hbefore⟩
    have hlt := halive.lt_max
    exact ⟨halive, ⟨hle, by omega⟩, hbefore⟩

theorem aliveFrom_succ (ht : ¬ s.Alive t) : s.aliveFrom (t + 1) = s.aliveFrom t := by
  have hskip : ∀ v, t ≤ v → s.Alive v → t + 1 ≤ v := fun v hv halive =>
    Nat.lt_of_le_of_ne hv fun h => ht (h ▸ halive)
  cases hres : s.aliveFrom t with
  | none =>
      rw [aliveFrom_eq_none] at hres ⊢
      exact fun v hv => hres v (Nat.le_of_succ_le hv)
  | some u =>
      rw [aliveFrom_eq_some] at hres ⊢
      obtain ⟨hle, halive, hbefore⟩ := hres
      exact ⟨hskip u hle halive, halive, fun v hv => hbefore v (Nat.le_of_succ_le hv)⟩

theorem findFirstBit_eq (s : ThreadTable) :
    ∃ t, findFirstBit s.bitmapThreads threadMax = some t ∧ s.aliveFrom 0 = some t := by
  have hlen := s.length_bitmap
  have hbits : threadMax ≤ 32 * s.bitmapThreads.length := by
    rw [hlen]
    decide
  have halive : ∀ v < threadMax, s.Alive v ↔ testBit s.bitmapThreads v = true := by
    intro v hv
    rw [Alive, bitmapGetBit_spec _ _ (by omega)]
    cases testBit s.bitmapThreads v <;> simp
  obtain ⟨t, ht, hle, hset, hbefore⟩ := findFirstBit_spec s.bitmapThreads threadMax hbits
  have hrun : s.Alive s.runningThread := s.running_alive
  have hmax := hrun.lt_max
  have hlt : t < threadMax := by
    by_contra hge
    have hclear := hbefore s.runningThread (by omega)
    rw [(halive _ hmax).mp hrun] at hclear
    cases hclear
  refine ⟨t, ht, aliveFrom_eq_some.mpr ⟨Nat.zero_le t, (halive t hlt).mpr (hset hlt), ?_⟩⟩
  intro v _ hv hav
  have hclear := hbefore v hv
  rw [(halive v (Nat.lt_trans hv hlt)).mp hav] at hclear
  cases hclear

/-- A call reports the first live thread from the cursor on, and returns the next one. -/
theorem sysThreadInfo_eq (s : ThreadTable) (info : ThreadStat) (next : Option Nat) :
    s.sysThreadInfo info next = some (match s.aliveFrom (next.getD 0) with
      | none => (info, none)
      | some t => (stat (s.threads t), s.aliveFrom (t + 1))) := by
  cases next with
  | none =>
      obtain ⟨t, ht, hfrom⟩ := s.findFirstBit_eq
      rw [sysThreadInfo, Option.getD_none, ht, hfrom]
      rfl
  | some c =>
      rw [sysThreadInfo, Option.getD_some]
      split
      · next hc =>
          have hfrom : s.aliveFrom c = some c :=
            aliveFrom_eq_some.mpr ⟨Nat.le_refl c, hc, fun v hv hlt => absurd hlt (Nat.not_lt.mpr hv)⟩
          rw [hfrom]
          rfl
      · next hc =>
          have hfrom : s.threadInfoFindNext c = s.aliveFrom c := by
            change s.aliveFrom (c + 1) = s.aliveFrom c
            exact aliveFrom_succ hc
          rw [hfrom]
          cases s.aliveFrom c <;> rfl

end Search

end ThreadTable

/-- A thread that asks again and again with the pointer it got. Threads come and go between the calls:
each call finds a table of its own. -/
structure Enumeration where
  tables : Nat → ThreadTable
  /-- What is in `info` before the first call. -/
  info : ThreadStat

namespace Enumeration
open ThreadTable

/-- What call `i` is made with, unless there is none. -/
def args (e : Enumeration) : Nat → Option (ThreadStat × Option Nat)
  | 0 => some (e.info, none)
  | i + 1 => do
      let (info, next) ← e.args i
      let (info, retval) ← (e.tables i).sysThreadInfo info next
      retval.map fun thread => (info, some thread)

def record (e : Enumeration) (i : Nat) : Option ThreadStat := do
  let (info, next) ← e.args i
  let (info, _) ← (e.tables i).sysThreadInfo info next
  some info

/-- The calls come to an end, and the records are those of different threads in the order of their
numbers, with every thread that is alive all the time. -/
structure Enumerates (e : Enumeration) : Prop where
  finite : ∃ n, e.args n = none
  returns : ∀ i, (e.args i).isSome → (e.record i).isSome
  increasing : ∀ i j a b, i < j → e.record i = some a → e.record j = some b → a.tid < b.tid
  complete : ∀ t, (∀ i, (e.args i).isSome → (e.tables i).Alive t) →
    ∃! i, ∃ a, e.record i = some a ∧ a.tid = t

/-- A call that gets the pointer to a slot finds this or a later thread alive. -/
def CursorOk (e : Enumeration) (i : Nat) : Prop :=
  ∀ info c, e.args i = some (info, some c) → ∃ t, c ≤ t ∧ (e.tables i).Alive t

section Calls
variable {e : Enumeration} {i j t : Nat} {info : ThreadStat} {next : Option Nat}

/-- Call `i` reports thread `t`, the first one alive from the cursor on. -/
structure Reports (e : Enumeration) (i c t : Nat) : Prop where
  first : (e.tables i).aliveFrom c = some t
  record : e.record i = some (stat ((e.tables i).threads t))
  args : e.args (i + 1) = ((e.tables i).aliveFrom (t + 1)).map fun c =>
    (stat ((e.tables i).threads t), some c)

theorem args_cases (hi : e.args i = some (info, next)) :
    (∃ t, e.Reports i (next.getD 0) t) ∨ ((e.tables i).aliveFrom (next.getD 0) = none ∧
      e.record i = some info ∧ e.args (i + 1) = none) := by
  have hcall := (e.tables i).sysThreadInfo_eq info next
  cases hfrom : (e.tables i).aliveFrom (next.getD 0) with
  | none =>
      rw [hfrom] at hcall
      refine Or.inr ⟨rfl, ?_, ?_⟩
      · simp only [Enumeration.record, hi, hcall, Option.bind_eq_bind, Option.bind_some]
      · simp only [Enumeration.args, hi, hcall, Option.bind_eq_bind, Option.bind_some, Option.map_none]
  | some t =>
      rw [hfrom] at hcall
      refine Or.inl ⟨t, hfrom, ?_, ?_⟩
      · simp only [Enumeration.record, hi, hcall, Option.bind_eq_bind, Option.bind_some]
      · simp only [Enumeration.args, hi, hcall, Option.bind_eq_bind, Option.bind_some]

theorem Reports.tid_eq {c : Nat} (h : e.Reports i c t) : (stat ((e.tables i).threads t)).tid = t :=
  (e.tables i).tid_eq t (aliveFrom_eq_some.mp h.first).2.1

theorem Reports.next_of_alive {c u : Nat} (h : e.Reports i c u) (ht : (e.tables i).Alive t)
    (hle : c ≤ t) : t = u ∨ ∃ c', (e.tables i).aliveFrom (u + 1) = some c' ∧ c' ≤ t := by
  obtain ⟨-, -, hbefore⟩ := aliveFrom_eq_some.mp h.first
  obtain hlt | rfl | hgt := Nat.lt_trichotomy t u
  · exact absurd ht (hbefore t hle hlt)
  · exact Or.inl rfl
  · cases hnext : (e.tables i).aliveFrom (u + 1) with
    | none => exact absurd ht (aliveFrom_eq_none.mp hnext t hgt)
    | some c' =>
        obtain ⟨-, -, hbetween⟩ := aliveFrom_eq_some.mp hnext
        exact Or.inr ⟨c', rfl, Nat.le_of_not_lt fun hlt => hbetween t hgt hlt ht⟩

/-- The call before one that is made has reported a thread, whose record the call finds. -/
theorem reports_of_args_succ (hi : e.args (i + 1) = some (info, next)) :
    ∃ info' next' t c, e.args i = some (info', next') ∧ e.Reports i (next'.getD 0) t ∧
      (e.tables i).aliveFrom (t + 1) = some c ∧ info = stat ((e.tables i).threads t) ∧ next = some c := by
  cases hargs : e.args i with
  | none =>
      rw [args, hargs] at hi
      cases hi
  | some a =>
      obtain ⟨info', next'⟩ := a
      obtain ⟨t, ht⟩ | ⟨-, -, hnone⟩ := args_cases hargs
      · rw [ht.args] at hi
        obtain ⟨c, hc, heq⟩ := Option.map_eq_some_iff.mp hi
        obtain ⟨rfl, rfl⟩ := Prod.mk.inj heq
        exact ⟨info', next', t, c, rfl, ht, hc, rfl, rfl⟩
      · rw [hnone] at hi
        cases hi

theorem cursor_spec (hi : e.args i = some (info, next)) :
    (∀ j a, j < i → e.record j = some a → a.tid < next.getD 0) ∧ i ≤ next.getD 0 ∧
      next.getD 0 < threadMax := by
  induction i generalizing info next with
  | zero =>
      obtain ⟨-, rfl⟩ := Prod.mk.inj (Option.some.inj hi)
      exact ⟨fun j a hj => absurd hj (Nat.not_lt_zero j), Nat.le_refl 0, by decide⟩
  | succ i ih =>
      obtain ⟨info', next', t, c, hargs, ht, hc, -, rfl⟩ := reports_of_args_succ hi
      obtain ⟨hbefore, hle, -⟩ := ih hargs
      obtain ⟨hfrom, -, -⟩ := aliveFrom_eq_some.mp ht.first
      obtain ⟨hlt, halive, -⟩ := aliveFrom_eq_some.mp hc
      refine ⟨fun j a hj ha => ?_, by rw [Option.getD_some]; omega, halive.lt_max⟩
      rw [Option.getD_some]
      obtain hj | rfl := Nat.lt_or_eq_of_le (Nat.le_of_lt_succ hj)
      · have htid := hbefore j a hj ha
        omega
      · rw [ht.record] at ha
        rw [← Option.some.inj ha, ht.tid_eq]
        omega

/-- A thread that is alive at every call is reported, or it is not before the cursor. -/
theorem cursor_misses_none (halive : ∀ i, (e.args i).isSome → (e.tables i).Alive t)
    (hi : e.args i = some (info, next)) :
    (∃ j a, e.record j = some a ∧ a.tid = t) ∨ next.getD 0 ≤ t := by
  induction i generalizing info next with
  | zero =>
      obtain ⟨-, rfl⟩ := Prod.mk.inj (Option.some.inj hi)
      exact Or.inr (Nat.zero_le t)
  | succ i ih =>
      obtain ⟨info', next', u, c, hargs, hu, hc, -, rfl⟩ := reports_of_args_succ hi
      have ht : (e.tables i).Alive t := halive i (by rw [hargs]; rfl)
      obtain hdone | hle := ih hargs
      · exact Or.inl hdone
      · obtain rfl | ⟨c', hc', hle'⟩ := hu.next_of_alive ht hle
        · exact Or.inl ⟨i, _, hu.record, hu.tid_eq⟩
        · rw [hc] at hc'
          exact Or.inr (Option.some.inj hc' ▸ hle')

theorem args_finite (e : Enumeration) : ∃ n, e.args n = none := by
  refine ⟨threadMax, ?_⟩
  cases hargs : e.args threadMax with
  | none => rfl
  | some a =>
      have hargs' : e.args threadMax = some (a.1, a.2) := hargs
      obtain ⟨-, hle, hlt⟩ := cursor_spec hargs'
      omega

theorem record_isSome (hi : (e.args i).isSome) : (e.record i).isSome := by
  obtain ⟨⟨info, next⟩, hargs⟩ := Option.isSome_iff_exists.mp hi
  obtain ⟨t, ht⟩ | ⟨-, hrecord, -⟩ := args_cases hargs
  · rw [ht.record]
    rfl
  · rw [hrecord]
    rfl

theorem args_of_record {a : ThreadStat} (ha : e.record i = some a) :
    ∃ info next, e.args i = some (info, next) := by
  obtain ⟨⟨info, next⟩, hargs, -⟩ := Option.bind_eq_some_iff.mp ha
  exact ⟨info, next, hargs⟩

theorem reports_of_cursorOk (hok : e.CursorOk i) (hi : e.args i = some (info, next)) :
    ∃ t, e.Reports i (next.getD 0) t := by
  refine (args_cases hi).resolve_right fun h => ?_
  have hnone := aliveFrom_eq_none.mp h.1
  cases next with
  | none => exact hnone (e.tables i).runningThread (Nat.zero_le _) (e.tables i).running_alive
  | some c =>
      obtain ⟨t, hle, halive⟩ := hok info c hi
      exact hnone t hle halive

theorem record_tid_lt {a b : ThreadStat} (hok : e.CursorOk j) (hij : i < j)
    (ha : e.record i = some a) (hb : e.record j = some b) : a.tid < b.tid := by
  obtain ⟨info, next, hargs⟩ := args_of_record hb
  obtain ⟨t, ht⟩ := reports_of_cursorOk hok hargs
  have hbefore := (cursor_spec hargs).1 i a hij ha
  have hfrom := (aliveFrom_eq_some.mp ht.first).1
  rw [ht.record] at hb
  rw [← Option.some.inj hb, ht.tid_eq]
  exact Nat.lt_of_lt_of_le hbefore hfrom

theorem exists_record (halive : ∀ i, (e.args i).isSome → (e.tables i).Alive t) :
    ∃ j a, e.record j = some a ∧ a.tid = t := by
  obtain ⟨n, hn, hfirst⟩ : ∃ n, e.args n = none ∧ ∀ m < n, e.args m ≠ none :=
    ⟨Nat.find e.args_finite, Nat.find_spec e.args_finite, fun m hm => Nat.find_min e.args_finite hm⟩
  cases n with
  | zero => cases hn
  | succ m =>
      obtain ⟨⟨info, next⟩, hargs⟩ := Option.ne_none_iff_exists'.mp (hfirst m (Nat.lt_succ_self m))
      have ht : (e.tables m).Alive t := halive m (by rw [hargs]; rfl)
      obtain hdone | hle := cursor_misses_none halive hargs
      · exact hdone
      · obtain ⟨u, hu⟩ | ⟨hnone, -⟩ := args_cases hargs
        · obtain rfl | ⟨c, hc, -⟩ := hu.next_of_alive ht hle
          · exact ⟨m, _, hu.record, hu.tid_eq⟩
          · rw [hu.args, hc] at hn
            cases hn
        · exact absurd ht (aliveFrom_eq_none.mp hnone t hle)

end Calls

/-- The enumeration works as long as no call finds its slot and all later ones empty; such a call
leaves in `info` the record of the call before. -/
theorem enumerates_iff (e : Enumeration) : e.Enumerates ↔ ∀ i, e.CursorOk i := by
  constructor
  · intro h i info c hargs
    by_contra hdead
    have hnone : (e.tables i).aliveFrom c = none :=
      aliveFrom_eq_none.mpr fun t hle halive => hdead ⟨t, hle, halive⟩
    cases i with
    | zero => cases (Prod.mk.inj (Option.some.inj hargs)).2
    | succ i =>
        obtain ⟨_, _, t, _, -, ht, -, rfl, -⟩ := reports_of_args_succ hargs
        obtain ⟨u, hu⟩ | ⟨-, hrecord, -⟩ := args_cases hargs
        · rw [Option.getD_some] at hu
          rw [hu.first] at hnone
          cases hnone
        · exact Nat.lt_irrefl _ (h.increasing i (i + 1) _ _ (Nat.lt_succ_self i) ht.record hrecord)
  · intro hok
    have hlt : ∀ i j a b, i < j → e.record i = some a → e.record j = some b → a.tid < b.tid :=
      fun i j a b hij => record_tid_lt (hok j) hij
    refine ⟨args_finite e, fun i => record_isSome, hlt, fun t halive => ?_⟩
    obtain ⟨i, a, ha, rfl⟩ := exists_record halive
    refine ⟨i, ⟨a, ha, rfl⟩, fun j ⟨b, hb, heq⟩ => ?_⟩
    obtain hji | rfl | hij := Nat.lt_trichotomy j i
    · exact absurd heq (Nat.ne_of_lt (hlt j i b a hji hb ha))
    · rfl
    · exact absurd heq (Nat.ne_of_gt (hlt i j a b hij ha hb))

/-- A thread in slot `t` of the table, which waits. -/
def waiting (t : Nat) : ThreadSlot where
  pid := 0
  tid := t
  priority := 0
  kernelThread := false
  stack := 0x20000000#32
  stackTop := 0x20000800#32
  stackSize := 0x1000#32
  name := List.replicate threadNameMax 0#8
  status := .wait

/-- Thread 1 ends after the first call of thread 0. -/
def ending : Enumeration where
  tables i :=
    { bitmapThreads := if i = 0 then [3#32, 0#32] else [1#32, 0#32]
      threads := waiting
      runningThread := 0
      length_bitmap := by split <;> rfl
      tid_eq := fun _ _ => rfl
      running_alive := by split <;> rfl }
  info := stat (waiting 0)

/-- The second call leaves the record of thread 0 in `info`. -/
theorem ending_not_enumerates : ¬ ending.Enumerates := by
  intro h
  have htids : (ending.record 0).map ThreadStat.tid = some 0 ∧
      (ending.record 1).map ThreadStat.tid = some 0 := by
    decide +kernel
  obtain ⟨a, ha, ha0⟩ := Option.map_eq_some_iff.mp htids.1
  obtain ⟨b, hb, hb0⟩ := Option.map_eq_some_iff.mp htids.2
  have hlt := h.increasing 0 1 a b (by decide) ha hb
  rw [ha0, hb0] at hlt
  exact Nat.lt_irrefl 0 hlt

end Enumeration

end Tenok
