import Tenok.Lib.Queues

/-!
Places in queues: how many members come before one. What joins a queue joins it at the end, so whatever
joins the queues and leaves them, as long as the member itself does not, its place gets no worse.
-/
namespace Queues
variable {η α : Type*} {L : η → List α} {a b : α} {g h : η} {l : List α} {n m : Nat}

/-- The member is in the queue, with at most so many before it. -/
def Place (a : α) (n : Nat) (l : List α) : Prop :=
  ∃ before after, l = before ++ a :: after ∧ before.length ≤ n

namespace Place

theorem mem (hp : Place a n l) : a ∈ l := by
  obtain ⟨before, after, rfl, -⟩ := hp
  exact List.mem_append_right _ List.mem_cons_self

theorem mono (hp : Place a n l) (hnm : n ≤ m) : Place a m l := by
  obtain ⟨before, after, hl, hlen⟩ := hp
  exact ⟨before, after, hl, hlen.trans hnm⟩

theorem append (hp : Place a n l) (joined : List α) : Place a n (l ++ joined) := by
  obtain ⟨before, after, rfl, hlen⟩ := hp
  exact ⟨before, after ++ joined, by rw [List.append_assoc, List.cons_append], hlen⟩

theorem tail (hp : Place a n (b :: l)) (hne : b ≠ a) : ∃ m, n = m + 1 ∧ Place a m l := by
  obtain ⟨before, after, hl, hlen⟩ := hp
  cases before with
  | nil =>
      obtain ⟨rfl, -⟩ := List.cons.inj hl
      exact absurd rfl hne
  | cons c before =>
      obtain ⟨-, rfl⟩ := List.cons.inj hl
      rw [List.length_cons] at hlen
      exact ⟨n - 1, by omega, before, after, rfl, by omega⟩

section
variable [DecidableEq α]

theorem erase (hp : Place a n l) (hne : a ≠ b) : Place a n (l.erase b) := by
  obtain ⟨before, after, rfl, hlen⟩ := hp
  by_cases hb : b ∈ before
  · rw [List.erase_append_left _ hb]
    exact ⟨_, _, rfl, (List.length_erase_le).trans hlen⟩
  · rw [List.erase_append_right _ hb, List.erase_cons_tail (by simpa using hne)]
    exact ⟨_, _, rfl, hlen⟩

theorem dequeue (hp : Place a n (L g)) (hne : a ≠ b) : Place a n (dequeue L b g) := hp.erase hne

end

variable [DecidableEq η]

theorem enqueue (hp : Place a n (L g)) (b : α) (h : η) : Place a n (enqueue L b h g) := by
  by_cases hgh : g = h
  · subst hgh
    rw [Queues.enqueue, Function.update_self]
    exact hp.append [b]
  · rwa [enqueue_of_ne hgh]

theorem transfer [DecidableEq α] (hp : Place a n (L g)) (hne : a ≠ b) (h : η) :
    Place a n (transfer L b h g) :=
  (hp.dequeue hne).enqueue b h

end Place

end Queues
