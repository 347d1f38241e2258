import Tenok.Kernel.Daemons

/-!
What becomes of the messages that are given to `console_write`, from buffer to buffer until
`printkd` has written them.
-/
namespace Tenok
open Ring Queues

def printSizeMax : Nat := 100

structure PrintkSys where
  phase : DaemonPhase
  data : Printk
  /-- What `stdout` has got of the message that is being written. -/
  out : List Byte
  written : List (List Byte)
  sent : List (List Byte)

inductive PrintkEvent
  | consoleWrite (msg : List Byte)
  /-- The loop of `printkd` goes on. -/
  | run
  /-- `write` puts out one more byte. -/
  | output

/-- The message that the event passes to `console_write`. -/
def PrintkEvent.messages : PrintkEvent → List (List Byte)
  | .consoleWrite msg => [msg]
  | .run | .output => []

def Printk.message (p : Printk) (i : Nat) : List Byte :=
  bytesAt (p.printkBuf i).data (p.printkBuf i).size

namespace PrintkSys

/-- The buffer that `printkd` has taken and not put back. -/
def held (s : PrintkSys) : List Nat :=
  match s.phase with
  | .work _ => s.data.entry.toList
  | _ => []

/-- The message that `printkd` has taken and not written yet. -/
def inFlight (s : PrintkSys) : List (List Byte) :=
  if s.phase = .work 0 ∨ s.phase = .work 1 then s.held.map s.data.message else []

/-- Calls of `console_write` with at most `PRINT_SIZE_MAX` bytes and steps of `printkd`, which is
woken at any time. -/
def step (tid : Tid) (s : PrintkSys) : PrintkEvent → Option PrintkSys
  | .consoleWrite msg =>
      if msg.length ≤ printSizeMax then
        (s.data.consoleWrite msg).map fun data => { s with data, sent := s.sent ++ [msg] }
      else none
  | .output =>
      if s.phase = .work 1 then
        s.data.entry.bind fun entry => (s.data.message entry)[s.out.length]?.map fun b =>
          { s with out := s.out ++ [b] }
      else none
  | .run => match s.phase with
      | .sleep => some { s with phase := .sched }
      | .sched => some { s with phase := .test }
      | phase =>
          -- `write` comes back when it has put out the message
          if phase = .work 1 ∧ s.data.entry.map s.data.message ≠ some s.out then none
          else ((printkd tid).next s.data phase).map fun (phase', data) =>
            if phase = .work 1 then
              { s with phase := phase', data, out := [], written := s.written ++ [s.out] }
            else { s with phase := phase', data }

/-- The buffers before the first message: `printkd_init` links them, whatever they contain. -/
def start (data : Printk) : PrintkSys where
  phase := .test
  data := { data with links := Printk.printkdInit data.links, isWriting := false }
  out := []
  written := []
  sent := []

/-- What has been sent and not been dropped, when the buffers of `wait` are on the wait list. -/
def kept (s : PrintkSys) (wait : List Nat) : List (List Byte) :=
  s.written ++ s.inFlight ++ wait.map s.data.message

/-- The lists hold the buffers, and the buffers hold messages in the order in which they were
sent. -/
structure Sound (s : PrintkSys) (L : PrintkList → List Nat) : Prop where
  rings : Rings s.data.links Set.univ L
  buffers : (L .free ++ L .wait ++ s.held).Perm (List.range printkQueueSize)
  take : s.phase = .take → L .wait ≠ []
  entry : ∀ n, s.phase = .work n → n ≤ 2 ∧ ∃ i, s.data.entry = some i
  out : s.out ≠ [] → s.phase = .work 1
  isPrefix : ∀ i, s.phase = .work 1 → s.data.entry = some i → s.out <+: s.data.message i
  sublist : (s.kept (L .wait)).Sublist s.sent

def Keeps (s s' : PrintkSys) (L L' : PrintkList → List Nat) (e : PrintkEvent) : Prop :=
  s'.kept (L' .wait) = s.kept (L .wait) ++ e.messages

/-- A message takes the buffer of the oldest one that waits, when all buffers but the one that is
printed hold messages that wait. -/
def Drops (s s' : PrintkSys) (L L' : PrintkList → List Nat) (e : PrintkEvent) : Prop :=
  ∃ i rest msg, e = .consoleWrite msg ∧ L .wait = i :: rest ∧
    s'.kept (L' .wait) = s.written ++ s.inFlight ++ rest.map s.data.message ++ [msg] ∧
    (L .wait ++ s.held).Perm (List.range printkQueueSize)

end PrintkSys

namespace Printk
variable {p p' : Printk} {L : PrintkList → List Nat} {msg : List Byte}

theorem firstEntry_eq (r : Rings p.links Set.univ L) (list : PrintkList) :
    p.firstEntry list = (L list).head? := by
  have hnext := (r.ring list (Set.mem_univ _)).next_head
  rw [firstEntry, hnext]
  cases L list with
  | nil => rfl
  | cons i l => rfl

theorem listEmpty_lists (r : Rings p.links Set.univ L) (list : PrintkList) :
    listEmpty p.links (.inl list) = true ↔ L list = [] := by
  rw [listEmpty_iff (r.ring list (Set.mem_univ _)), List.map_eq_nil_iff]

theorem transfer_first {i : Nat} {list : PrintkList} {l : List Nat} (r : Rings p.links Set.univ L)
    (hl : L list = i :: l) :
    transfer L i .wait = Function.update (Function.update L list l) .wait
      (Function.update L list l .wait ++ [i]) := by
  have hdequeue : dequeue L i = Function.update L list l := by
    funext g
    by_cases hg : g = list
    · subst hg
      rw [dequeue, Function.update_self, hl, List.erase_cons_head]
    · rw [Function.update_of_ne hg]
      refine dequeue_of_notMem fun hmem => hg (r.unique hmem ?_)
      rw [hl]
      exact List.mem_cons_self
  rw [transfer, enqueue, hdequeue]

theorem nextEntry_lists {i : Nat} {links : Cells (PrintkList ⊕ Nat)} (r : Rings p.links Set.univ L)
    (h : p.nextEntry = some (i, links)) :
    ∃ list l, L list = i :: l ∧ (list = .wait → L .free = []) ∧
      Rings links Set.univ (transfer L i .wait) := by
  have hmoved : ∀ list l, L list = i :: l →
      Rings (listMove p.links (Sum.inr i) (Sum.inl .wait)) Set.univ (transfer L i .wait) := by
    intro list l hl
    refine listMove_rings r (g := list) ?_ (Set.mem_univ _)
    rw [hl]
    exact List.mem_cons_self
  rw [nextEntry] at h
  split at h
  · next hempty =>
      obtain ⟨entry, hfirst, heq⟩ := Option.map_eq_some_iff.mp h
      obtain ⟨rfl, rfl⟩ := Prod.mk.inj heq
      rw [firstEntry_eq r, List.head?_eq_some_iff] at hfirst
      obtain ⟨l, hl⟩ := hfirst
      exact ⟨.wait, l, hl, fun _ => (listEmpty_lists r _).mp hempty, hmoved _ l hl⟩
  · obtain ⟨entry, hfirst, heq⟩ := Option.map_eq_some_iff.mp h
    obtain ⟨rfl, rfl⟩ := Prod.mk.inj heq
    rw [firstEntry_eq r, List.head?_eq_some_iff] at hfirst
    obtain ⟨l, hl⟩ := hfirst
    refine ⟨.free, l, hl, ?_, hmoved _ l hl⟩
    intro hlist
    cases hlist

theorem consoleWrite_lists (r : Rings p.links Set.univ L) (h : p.consoleWrite msg = some p') :
    ∃ i list l, L list = i :: l ∧ (list = .wait → L .free = []) ∧
      Rings p'.links Set.univ (transfer L i .wait) ∧ p'.entry = p.entry ∧ p'.message i = msg ∧
        ∀ j, j ≠ i → p'.message j = p.message j := by
  obtain ⟨⟨i, links⟩, hentry, rfl⟩ := Option.map_eq_some_iff.mp h
  obtain ⟨list, l, hl, hfree, hrings⟩ := nextEntry_lists r hentry
  refine ⟨i, list, l, hl, hfree, hrings, rfl, ?_, ?_⟩
  · simp only [message, Function.update_self, bytesAt_memcpy, bytesAt_getD]
  · intro j hj
    simp only [message, Function.update_of_ne hj]

end Printk

namespace PrintkSys
variable {s s' : PrintkSys} {L : PrintkList → List Nat}

theorem held_eq (s : PrintkSys) (hphase : ∀ n, s.phase ≠ .work n) : s.held = [] := by
  rw [held]
  split
  · next n hwork => exact absurd hwork (hphase n)
  · rfl

theorem held_phase {n : Nat} (hphase : s.phase = .work n) : s.held = s.data.entry.toList := by
  rw [held, hphase]

theorem held_work {n i : Nat} (hphase : s.phase = .work n) (hentry : s.data.entry = some i) :
    s.held = [i] := by
  rw [held_phase hphase, hentry]
  rfl

theorem inFlight_congr (hphase : s'.phase = s.phase) (hheld : s'.held = s.held)
    (hmessage : ∀ j ∈ s.held, s'.data.message j = s.data.message j) : s'.inFlight = s.inFlight := by
  rw [inFlight, inFlight, hphase, hheld, List.map_congr_left hmessage]

namespace Sound

theorem nodup (hs : s.Sound L) : (L .free ++ L .wait ++ s.held).Nodup :=
  hs.buffers.nodup_iff.mpr List.nodup_range

/-- Buffer `i`, which `printkd` has not taken, goes to the end of the wait list with a message. -/
theorem enqueued {L' : PrintkList → List Nat} {i : Nat} {rest : List Nat} {msg : List Byte}
    {data : Printk} (hs : s.Sound L) (hi : i ∉ s.held) (hrest : i ∉ rest)
    (hentry : data.entry = s.data.entry) (hmsg : data.message i = msg)
    (hothers : ∀ j, j ≠ i → data.message j = s.data.message j)
    (hrings : Rings data.links Set.univ L') (hwait : L' .wait = rest ++ [i])
    (hbuffers : (L' .free ++ L' .wait ++ s.held).Perm (List.range printkQueueSize))
    (hsublist : (s.written ++ s.inFlight ++ rest.map s.data.message).Sublist s.sent) :
    let s' := { s with data, sent := s.sent ++ [msg] }
    s'.Sound L' ∧ s'.kept (L' .wait) =
      s.written ++ s.inFlight ++ rest.map s.data.message ++ [msg] := by
  have hheld : PrintkSys.held { s with data, sent := s.sent ++ [msg] } = s.held := by
    simp only [held, hentry]
  have hflight : inFlight { s with data, sent := s.sent ++ [msg] } = s.inFlight :=
    inFlight_congr rfl hheld fun j hj => hothers j fun hji => hi (hji ▸ hj)
  have hsame : rest.map data.message = rest.map s.data.message :=
    List.map_congr_left fun j hj => hothers j fun hji => hrest (hji ▸ hj)
  have hkept : kept { s with data, sent := s.sent ++ [msg] } (L' .wait) =
      s.written ++ s.inFlight ++ rest.map s.data.message ++ [msg] := by
    simp only [kept, hwait, hflight, List.map_append, List.map_cons, List.map_nil, hmsg, hsame,
      List.append_assoc]
  refine ⟨⟨hrings, ?_, ?_, ?_, hs.out, ?_, ?_⟩, hkept⟩
  · rwa [hheld]
  · simp [hwait]
  · change ∀ n, s.phase = .work n → n ≤ 2 ∧ ∃ i, data.entry = some i
    rw [hentry]
    exact hs.entry
  · intro j hphase hj
    change s.phase = .work 1 at hphase
    change data.entry = some j at hj
    change s.out <+: data.message j
    rw [hentry] at hj
    have hmem : j ∈ s.held := by simp [held_work hphase hj]
    rw [hothers j fun hji => hi (hji ▸ hmem)]
    exact hs.isPrefix j hphase hj
  · rw [hkept]
    exact hsublist.append (List.Sublist.refl _)

/-- A message that is sent takes the place of one that waits only if there is no free buffer. -/
theorem consoleWrite {msg : List Byte} {data : Printk} (hs : s.Sound L)
    (hwrite : s.data.consoleWrite msg = some data) :
    let s' := { s with data, sent := s.sent ++ [msg] }
    ∃ L', s'.Sound L' ∧ (Keeps s s' L L' (.consoleWrite msg) ∨ Drops s s' L L' (.consoleWrite msg)) := by
  obtain ⟨i, list, l, hl, hfree, hrings, hentry, hmsg, hothers⟩ :=
    Printk.consoleWrite_lists hs.rings hwrite
  have hlists := Printk.transfer_first hs.rings hl
  have hnodup := hs.nodup
  -- what is in flight is in no list
  have hi : i ∉ s.held := by
    rw [List.nodup_append] at hnodup
    refine fun hmem => hnodup.2.2 i ?_ i hmem rfl
    cases list with
    | free => simp [hl]
    | wait => simp [hl]
  cases list with
  | free =>
      have hnotin : i ∉ L .wait := by
        simp only [hl, List.cons_append, List.nodup_cons, List.mem_append, not_or] at hnodup
        exact hnodup.1.1.2
      have hwait : transfer L i .wait .wait = L .wait ++ [i] := by simp [hlists]
      have hrest : transfer L i .wait .free = l := by simp [hlists]
      have hbuffers : (transfer L i .wait .free ++ transfer L i .wait .wait ++ s.held).Perm
          (List.range printkQueueSize) := by
        rw [hwait, hrest]
        refine List.Perm.trans ?_ hs.buffers
        rw [hl, List.perm_iff_count]
        intro j
        simp only [List.count_append, List.count_cons, List.count_nil]
        omega
      obtain ⟨hsound, hkept⟩ :=
        hs.enqueued hi hnotin hentry hmsg hothers hrings hwait hbuffers hs.sublist
      exact ⟨_, hsound, Or.inl hkept⟩
  | wait =>
      have hnotin : i ∉ l := by
        simp only [hfree rfl, hl, List.nil_append, List.cons_append, List.nodup_cons,
          List.mem_append, not_or] at hnodup
        exact hnodup.1.1
      have hwait : transfer L i .wait .wait = l ++ [i] := by simp [hlists]
      have hrest : transfer L i .wait .free = [] := by simp [hlists, hfree rfl]
      have hold := hs.buffers
      rw [hfree rfl, List.nil_append] at hold
      have hbuffers : (transfer L i .wait .free ++ transfer L i .wait .wait ++ s.held).Perm
          (List.range printkQueueSize) := by
        rw [hwait, hrest]
        refine List.Perm.trans ?_ hold
        rw [hl, List.perm_iff_count]
        intro j
        simp only [List.count_append, List.count_cons, List.count_nil]
        omega
      have hsublist : (s.written ++ s.inFlight ++ l.map s.data.message).Sublist s.sent := by
        refine List.Sublist.trans ?_ hs.sublist
        rw [kept, hl, List.map_cons]
        exact (List.Sublist.refl _).append (List.sublist_cons_self ..)
      obtain ⟨hsound, hkept⟩ :=
        hs.enqueued hi hnotin hentry hmsg hothers hrings hwait hbuffers hsublist
      exact ⟨_, hsound, Or.inr ⟨i, l, msg, rfl, hl, hkept, hold⟩⟩

theorem idle {phase : DaemonPhase} (hs : s.Sound L) (hold : ∀ n, s.phase ≠ .work n)
    (hnew : ∀ n, phase ≠ .work n) (htake : phase = .take → L .wait ≠ []) :
    Sound { s with phase } L ∧ Keeps s { s with phase } L L .run := by
  have hheld : s.held = [] := held_eq s hold
  have hheld' : held { s with phase } = [] := held_eq _ hnew
  have hflight : s.inFlight = [] := by simp [inFlight, hold]
  have hflight' : inFlight { s with phase } = [] := by simp [inFlight, hnew]
  have hkept : kept { s with phase } (L .wait) = s.kept (L .wait) := by
    simp only [kept, hflight, hflight']
  refine ⟨⟨hs.rings, ?_, htake, fun n hn => absurd hn (hnew n), ?_, fun i hwork => ?_, ?_⟩, ?_⟩
  · rw [hheld', ← hheld]
    exact hs.buffers
  · exact fun hout => absurd (hs.out hout) (hold 1)
  · exact absurd hwork (hnew 1)
  · rw [hkept]
    exact hs.sublist
  · rw [Keeps, hkept, PrintkEvent.messages, List.append_nil]

theorem pop {data : Printk} (hs : s.Sound L) (hphase : s.phase = .take)
    (hpop : s.data.pop = some data) : ∃ L', Sound { s with phase := .work 0, data } L' ∧
      Keeps s { s with phase := .work 0, data } L L' .run := by
  obtain ⟨i, hfirst, heq⟩ := Option.bind_eq_some_iff.mp hpop
  obtain rfl := Option.some.inj heq
  rw [Printk.firstEntry_eq hs.rings, List.head?_eq_some_iff] at hfirst
  obtain ⟨l, hl⟩ := hfirst
  have hold : s.held = [] := held_eq s (by simp [hphase])
  have hbuffers := hs.buffers
  have hnodup := hs.nodup
  have hmem : i ∈ L .wait := by simp [hl]
  have hwait : dequeue L i .wait = l := by rw [dequeue, hl, List.erase_cons_head]
  have hfree : dequeue L i .free = L .free :=
    dequeue_of_notMem fun hi => by cases hs.rings.unique hi hmem
  have hout : s.out = [] := by
    by_contra hne
    cases hphase.symm.trans (hs.out hne)
  have hkept : ∀ links, kept { s with phase := .work 0, data := { s.data with links, entry := i } } l =
      s.kept (L .wait) := by
    intro links
    simp [kept, inFlight, held, hphase, hl, Printk.message]
  refine ⟨_, ⟨listDel_rings hs.rings hmem, ?_, fun h => (by cases h), ?_, ?_, fun _ h => (by cases h), ?_⟩, ?_⟩
  · rw [hwait, hfree, held_work rfl rfl]
    refine List.Perm.trans ?_ hbuffers
    rw [hl, hold, List.perm_iff_count]
    intro j
    simp only [List.count_append, List.count_cons, List.count_nil]
    omega
  · intro n hn
    obtain rfl := DaemonPhase.work.inj hn
    exact ⟨by decide, i, rfl⟩
  · exact fun hne => absurd hout hne
  · rw [hwait, hkept]
    exact hs.sublist
  · rw [Keeps, hwait, hkept, PrintkEvent.messages, List.append_nil]

theorem write (hs : s.Sound L) (hphase : s.phase = .work 0) :
    Sound { s with phase := .work 1, data := { s.data with isWriting := true } } L ∧
      Keeps s { s with phase := .work 1, data := { s.data with isWriting := true } } L L .run := by
  obtain ⟨_, i, hi⟩ := hs.entry 0 hphase
  have hout : s.out = [] := by
    by_contra hne
    cases hphase.symm.trans (hs.out hne)
  have hbuffers := hs.buffers
  have hkept : kept { s with phase := .work 1, data := { s.data with isWriting := true } } (L .wait) =
      s.kept (L .wait) := by
    simp [kept, inFlight, held, hphase, hi, Printk.message]
  refine ⟨⟨hs.rings, ?_, fun h => (by cases h), ?_, fun _ => rfl, ?_, ?_⟩, ?_⟩
  · rw [held_phase hphase] at hbuffers
    exact hbuffers
  · intro n hn
    obtain rfl := DaemonPhase.work.inj hn
    exact ⟨by decide, i, hi⟩
  · intro j _ _
    simp only [hout, List.nil_prefix]
  · rw [hkept]
    exact hs.sublist
  · rw [Keeps, hkept, PrintkEvent.messages, List.append_nil]

theorem written (hs : s.Sound L) (hphase : s.phase = .work 1)
    (hall : s.data.entry.map s.data.message = some s.out) :
    let s' := { s with
      phase := .work 2, data := { s.data with isWriting := false }, out := []
      written := s.written ++ [s.out] }
    s'.Sound L ∧ Keeps s s' L L .run := by
  obtain ⟨i, hi, hmessage⟩ := Option.map_eq_some_iff.mp hall
  have hbuffers := hs.buffers
  have hkept : kept { s with
      phase := .work 2, data := { s.data with isWriting := false }, out := []
      written := s.written ++ [s.out] } (L .wait) = s.kept (L .wait) := by
    simp [kept, inFlight, held, hphase, hi, Printk.message, ← hmessage]
  refine ⟨⟨hs.rings, ?_, fun h => (by cases h), ?_, fun h => absurd rfl h, fun _ h => (by cases h), ?_⟩, ?_⟩
  · rw [held_phase hphase] at hbuffers
    exact hbuffers
  · intro n hn
    obtain rfl := DaemonPhase.work.inj hn
    exact ⟨by decide, i, hi⟩
  · rw [hkept]
    exact hs.sublist
  · rw [Keeps, hkept, PrintkEvent.messages, List.append_nil]

theorem release (hs : s.Sound L) (hphase : s.phase = .work 2) :
    ∃ L', Sound { s with phase := .test, data := s.data.release } L' ∧
      Keeps s { s with phase := .test, data := s.data.release } L L' .run := by
  obtain ⟨_, i, hi⟩ := hs.entry 2 hphase
  have hrelease : s.data.release =
      { s.data with links := listAdd s.data.links (Sum.inr i) (Sum.inl .free) } := by
    simp only [Printk.release, hi]
  have hbuffers := hs.buffers
  have hnodup := hs.nodup
  have hnotin : ∀ g, i ∉ L g := by
    rw [held_work hphase hi, List.nodup_append] at hnodup
    intro g hmem
    refine hnodup.2.2 i ?_ i (by simp) rfl
    cases g with
    | free => simp [hmem]
    | wait => simp [hmem]
  have hout : s.out = [] := by
    by_contra hne
    cases hphase.symm.trans (hs.out hne)
  have hfree : enqueue L i .free .free = L .free ++ [i] := by simp [enqueue]
  have hwait : enqueue L i .free .wait = L .wait := enqueue_of_ne (by simp)
  have hkept : kept { s with phase := .test, data := s.data.release } (L .wait) =
      s.kept (L .wait) := by
    simp [kept, inFlight, hphase, hrelease, Printk.message]
  refine ⟨enqueue L i .free, ⟨?_, ?_, fun h => (by cases h), fun n h => (by cases h), fun h => absurd hout h,
    fun _ h => (by cases h), ?_⟩, ?_⟩
  · rw [hrelease]
    exact listAdd_rings hs.rings (Set.mem_univ _) hnotin
  · rw [hfree, hwait]
    refine List.Perm.trans ?_ hbuffers
    rw [held_work hphase hi, List.perm_iff_count]
    intro j
    simp only [held, List.count_append, List.count_cons, List.count_nil]
    omega
  · rw [hwait, hkept]
    exact hs.sublist
  · rw [Keeps, hwait, hkept, PrintkEvent.messages, List.append_nil]

theorem output {i : Nat} {b : Byte} (hs : s.Sound L) (hphase : s.phase = .work 1)
    (hi : s.data.entry = some i) (hb : (s.data.message i)[s.out.length]? = some b) :
    Sound { s with out := s.out ++ [b] } L ∧
      Keeps s { s with out := s.out ++ [b] } L L .output := by
  have hprefix := hs.isPrefix i hphase hi
  refine ⟨⟨hs.rings, hs.buffers, hs.take, hs.entry, fun _ => hphase, fun j _ hj => ?_,
    hs.sublist⟩, ?_⟩
  · obtain rfl : i = j := Option.some.inj (hi.symm.trans hj)
    obtain ⟨rest, hrest⟩ := hprefix
    rw [← hrest, List.getElem?_append_right (Nat.le_refl _), Nat.sub_self] at hb
    cases rest with
    | nil => cases hb
    | cons c rest =>
        obtain rfl : c = b := Option.some.inj hb
        exact ⟨rest, by simp [← hrest]⟩
  · rw [Keeps, PrintkEvent.messages, List.append_nil]
    rfl

theorem run {tid : Tid} (hs : s.Sound L) (hstep : s.step tid .run = some s') :
    ∃ L', s'.Sound L' ∧ Keeps s s' L L' .run := by
  cases hphase : s.phase with
  | sleep =>
      simp only [step, hphase, Option.some.injEq] at hstep
      subst hstep
      exact ⟨L, hs.idle (by simp [hphase]) (by simp) (by simp)⟩
  | sched =>
      simp only [step, hphase, Option.some.injEq] at hstep
      subst hstep
      exact ⟨L, hs.idle (by simp [hphase]) (by simp) (by simp)⟩
  | test =>
      have hempty := Printk.listEmpty_lists hs.rings .wait
      by_cases hnil : listEmpty s.data.links (.inl .wait) = true
      · obtain rfl : { s with phase := .sleep } = s' := by
          simpa [step, hphase, DaemonCode.next, printkd, hnil] using hstep
        exact ⟨L, hs.idle (by simp [hphase]) (by simp) (by simp)⟩
      · obtain rfl : { s with phase := .take } = s' := by
          simpa [step, hphase, DaemonCode.next, printkd, hnil] using hstep
        exact ⟨L, hs.idle (by simp [hphase]) (by simp) fun _ hwait => hnil (hempty.mpr hwait)⟩
  | take =>
      obtain ⟨data, hpop, rfl⟩ : ∃ data, s.data.pop = some data ∧
          { s with phase := .work 0, data } = s' := by
        simpa [step, hphase, DaemonCode.next, printkd] using hstep
      exact hs.pop hphase hpop
  | work n =>
      obtain ⟨hn, i, hi⟩ := hs.entry n hphase
      obtain rfl | rfl | rfl : n = 0 ∨ n = 1 ∨ n = 2 := by omega
      · obtain rfl : { s with phase := .work 1, data := { s.data with isWriting := true } } = s' := by
          simpa [step, hphase, DaemonCode.next, printkd] using hstep
        exact ⟨L, hs.write hphase⟩
      · obtain ⟨hall, rfl⟩ : s.data.entry.map s.data.message = some s.out ∧ { s with
            phase := .work 2, data := { s.data with isWriting := false }, out := []
            written := s.written ++ [s.out] } = s' := by
          simpa [step, hphase, DaemonCode.next, printkd] using hstep
        exact ⟨L, hs.written hphase hall⟩
      · obtain rfl : { s with phase := .test, data := s.data.release } = s' := by
          simpa [step, hphase, DaemonCode.next, printkd] using hstep
        exact hs.release hphase

theorem step {tid : Tid} {e : PrintkEvent} (hs : s.Sound L) (hstep : s.step tid e = some s') :
    ∃ L', s'.Sound L' ∧ (Keeps s s' L L' e ∨ Drops s s' L L' e) := by
  cases e with
  | consoleWrite msg =>
      simp only [PrintkSys.step] at hstep
      split at hstep
      · obtain ⟨data, hwrite, rfl⟩ := Option.map_eq_some_iff.mp hstep
        exact hs.consoleWrite hwrite
      · cases hstep
  | run =>
      obtain ⟨L', hs', hkeeps⟩ := hs.run hstep
      exact ⟨L', hs', Or.inl hkeeps⟩
  | output =>
      simp only [PrintkSys.step] at hstep
      split at hstep
      · next hphase =>
          obtain ⟨i, hi, hout⟩ := Option.bind_eq_some_iff.mp hstep
          obtain ⟨b, hb, rfl⟩ := Option.map_eq_some_iff.mp hout
          obtain ⟨hs', hkeeps⟩ := hs.output hphase hi hb
          exact ⟨L, hs', Or.inl hkeeps⟩
      · cases hstep

end Sound

theorem printkdInit_rings (links : Cells (PrintkList ⊕ Nat)) :
    Rings (Printk.printkdInit links) Set.univ
      (Function.update (fun _ => []) .free (List.range printkQueueSize)) := by
  have hnone : Rings links ∅ fun _ : PrintkList => ([] : List Nat) :=
    ⟨fun _ h => absurd h (Set.notMem_empty _), fun h => absurd h List.not_mem_nil,
      fun h => absurd h List.not_mem_nil⟩
  have hmem : ∀ h, h ∈ Set.univ ↔ h ∈ (∅ : Set PrintkList) ∨ h ∈ [.wait, .free] := fun h => by
    cases h <;> simp
  have hheads := initListHeads_rings hnone (by decide) (by simp) hmem
  rw [Printk.printkdInit]
  generalize printkQueueSize = size
  induction size with
  | zero =>
      have hempty : Function.update (fun _ : PrintkList => ([] : List Nat)) .free (List.range 0) =
          fun _ => [] := Function.update_eq_self ..
      rw [hempty]
      exact hheads
  | succ n ih =>
      rw [List.range_succ, List.foldl_append]
      have hadd := listAdd_rings (a := n) ih (Set.mem_univ PrintkList.free) fun g => by
        cases g <;> simp
      refine (congrArg (Rings _ Set.univ) ?_).mp hadd
      funext g
      cases g with
      | free => simp [enqueue]
      | wait => simp [enqueue]

theorem start_sound (data : Printk) :
    (start data).Sound (Function.update (fun _ => []) .free (List.range printkQueueSize)) := by
  refine ⟨printkdInit_rings data.links, ?_, ?_, ?_, ?_, ?_, ?_⟩
  all_goals simp [start, held, kept, inFlight]

/-- The messages that have been written are some of those that were sent, in their order. -/
theorem Sound.written_sublist (hs : s.Sound L) : s.written.Sublist s.sent := by
  have hkept := hs.sublist
  rw [kept, List.append_assoc] at hkept
  exact (List.sublist_append_left ..).trans hkept

end PrintkSys

/-- In every state that calls of `console_write` and steps of `printkd` reach, the buffers are on the
two lists or with `printkd`, `stdout` has got messages that were sent, in order and whole but for
the last one, and the next step drops no message but the oldest one that waits, and that only when
all other buffers are waiting, too. -/
theorem printkd_messages (tid : Tid) (data : Printk) (es : List PrintkEvent) (s : PrintkSys)
    (hrun : Runs.exec (PrintkSys.step tid) (.start data) es = some s) :
    ∃ L, s.Sound L ∧ s.written.Sublist s.sent ∧ ∀ e s', s.step tid e = some s' →
      ∃ L', s'.Sound L' ∧ (PrintkSys.Keeps s s' L L' e ∨ PrintkSys.Drops s s' L L' e) := by
  obtain ⟨L, hs⟩ := Runs.exec_keeps (I := fun s => ∃ L, PrintkSys.Sound s L)
    (fun s e s' hs hstep => by
      obtain ⟨L, hs⟩ := hs
      obtain ⟨L', hs', _⟩ := hs.step hstep
      exact ⟨L', hs'⟩) ⟨_, PrintkSys.start_sound data⟩ hrun
  exact ⟨L, hs, hs.written_sublist, fun e s' hstep => hs.step hstep⟩

/-- A message comes while another one is written. -/
theorem printkd_messages_at_run : ∃ s, Runs.exec (PrintkSys.step 3)
    (.start ⟨⟨fun _ => .inl .free, fun _ => .inl .free⟩, fun _ => ⟨0, fun _ => 0#8⟩, false, none⟩)
    [.consoleWrite [1#8], .run, .run, .run, .consoleWrite [2#8, 3#8], .output, .run, .run] = some s ∧
      s.written = [[1#8]] ∧ s.written.Sublist s.sent := by
  have hrun : (Runs.exec (PrintkSys.step 3)
      (.start ⟨⟨fun _ => .inl .free, fun _ => .inl .free⟩, fun _ => ⟨0, fun _ => 0#8⟩, false, none⟩)
      [.consoleWrite [1#8], .run, .run, .run, .consoleWrite [2#8, 3#8], .output, .run, .run]).map
      PrintkSys.written = some [[1#8]] := by decide +kernel
  obtain ⟨s, hs, hwritten⟩ := Option.map_eq_some_iff.mp hrun
  obtain ⟨_, _, hsublist, _⟩ := printkd_messages 3 _ _ s hs
  exact ⟨s, hs, hwritten, hsublist⟩

end Tenok
