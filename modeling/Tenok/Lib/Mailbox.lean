import Mathlib.Data.List.Basic

/-!
A bounded queue with one consumer. An arrival at a full queue makes the oldest message give
way; the consumer takes the next message when it has finished the last one. Every message
that has arrived is served, dropped or pending, and the histories tell which.
-/
universe u

structure Mailbox (α : Type u) where
  pending : List α := []
  /-- The message that the consumer is at. -/
  active : Option α := none
  arrived : List α := []
  /-- What became of the messages that left the queue: `true` for those that were served. -/
  settled : List (α × Bool) := []

namespace Mailbox
variable {α : Type u} {cap : Nat} {m : Mailbox α} {a : α}

def push (m : Mailbox α) (a : α) : Mailbox α :=
  { m with pending := m.pending ++ [a], arrived := m.arrived ++ [a] }

/-- The oldest message gives way. -/
def drop (m : Mailbox α) : Mailbox α :=
  match m.pending with
  | [] => m
  | old :: rest => { m with pending := rest, settled := m.settled ++ [(old, false)] }

def arrive (cap : Nat) (m : Mailbox α) (a : α) : Mailbox α :=
  if m.pending.length < cap then m.push a else m.drop.push a

/-- The consumer takes the oldest message if it is free. -/
def attend (m : Mailbox α) : Mailbox α :=
  match m.active, m.pending with
  | none, next :: rest =>
      { m with pending := rest, active := some next, settled := m.settled ++ [(next, true)] }
  | _, _ => m

def finish (m : Mailbox α) : Mailbox α := { m with active := none }

/-- The messages that the consumer was given, in this order. -/
def served (m : Mailbox α) : List α := (m.settled.filter Prod.snd).map Prod.fst

theorem drop_eq (m : Mailbox α) : m.drop.pending = m.pending.tail ∧ m.drop.active = m.active ∧
    m.drop.served = m.served ∧ m.drop.arrived = m.arrived := by
  rw [drop]
  split
  · next hpending => simp [hpending]
  · next hpending => simp [hpending, served]

theorem pending_arrive (cap : Nat) (m : Mailbox α) (a : α) : (m.arrive cap a).pending =
    (if m.pending.length < cap then m.pending else m.pending.tail) ++ [a] := by
  rw [arrive]
  split
  · rfl
  · rw [push, m.drop_eq.1]

theorem arrive_eq (cap : Nat) (m : Mailbox α) (a : α) : (m.arrive cap a).active = m.active ∧
    (m.arrive cap a).served = m.served ∧ (m.arrive cap a).arrived = m.arrived ++ [a] := by
  rw [arrive]
  split
  · exact ⟨rfl, rfl, rfl⟩
  · obtain ⟨-, hactive, hserved, harrived⟩ := m.drop_eq
    exact ⟨hactive, hserved, congrArg (· ++ [a]) harrived⟩

theorem attend_of_free {next : α} {rest : List α} (hactive : m.active = none)
    (hpending : m.pending = next :: rest) : m.attend =
      { m with pending := rest, active := some next, settled := m.settled ++ [(next, true)] } := by
  simp only [attend, hactive, hpending]

theorem attend_of_busy (h : m.active ≠ none ∨ m.pending = []) : m.attend = m := by
  rw [attend]
  split
  · next hactive hpending =>
      obtain hbusy | hempty := h
      · exact absurd hactive hbusy
      · rw [hempty] at hpending
        cases hpending
  · rfl

theorem arrived_attend (m : Mailbox α) : m.attend.arrived = m.arrived := by
  rw [attend]
  split <;> rfl

/-- Each message that has arrived is in one place, in the order of arrival. -/
structure Accounted (cap : Nat) (m : Mailbox α) : Prop where
  arrived : m.arrived = m.settled.map Prod.fst ++ m.pending
  bounded : m.pending.length ≤ cap
  active : ∀ a ∈ m.active, m.served.getLast? = some a

namespace Accounted

theorem empty (cap : Nat) : Accounted cap ({} : Mailbox α) :=
  ⟨rfl, Nat.zero_le cap, by simp⟩

theorem arrive (h : Accounted cap m) (hcap : 0 < cap) (a : α) :
    Accounted cap (m.arrive cap a) := by
  rw [Mailbox.arrive]
  split
  · next hlt =>
      refine ⟨?_, ?_, h.active⟩
      · simp [push, h.arrived]
      · rw [push, List.length_append, List.length_singleton]
        exact hlt
  · next hge =>
      cases hpending : m.pending with
      | nil => simp [hpending, hcap] at hge
      | cons old rest =>
          have hlen := h.bounded
          rw [hpending, List.length_cons] at hlen
          refine ⟨?_, ?_, ?_⟩
          · simp [push, drop, hpending, h.arrived]
          · simpa [push, drop, hpending] using hlen
          · simpa [push, drop, hpending, served] using h.active

theorem attend (h : Accounted cap m) : Accounted cap m.attend := by
  rw [Mailbox.attend]
  split
  · next next rest hidle hpending =>
      have hlen := h.bounded
      rw [hpending, List.length_cons] at hlen
      refine ⟨?_, Nat.le_of_succ_le hlen, ?_⟩
      · simp [h.arrived, hpending]
      · simp [served]
  · exact h

theorem finish (h : Accounted cap m) : Accounted cap m.finish :=
  ⟨h.arrived, h.bounded, by simp [Mailbox.finish]⟩

end Accounted

end Mailbox
