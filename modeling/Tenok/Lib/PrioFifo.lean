import Mathlib.Data.List.FinRange
import Mathlib.Data.List.Nodup
import Mathlib.Data.List.Perm.Subperm
import Mathlib.Order.Basic

/-!
A queue of messages with priorities, as the history of what was sent and received: a
message is known by its place in the order of sending. The backlog of one priority is
an increasing list of such places, which is what an implementation keeps.
-/
namespace PrioFifo
universe u v
variable {π : Type u} {μ : Type v}

/-- The messages sent so far, oldest first, and the places of those received. -/
structure History (π : Type u) (μ : Type v) where
  sent : List (π × μ)
  received : List Nat

/-- A search from the highest level down stops at the highest one that is not empty. -/
theorem find?_reverse_finRange {n : Nat} {f : Fin n → Bool} {p : Fin n}
    (h : (List.finRange n).reverse.find? f = some p) : f p = true ∧ ∀ q, p < q → f q = false := by
  obtain ⟨hp, higher, lower, hsplit, hhigher⟩ := List.find?_eq_some_iff_append.mp h
  have hsorted : (List.finRange n).reverse.Pairwise (· > ·) :=
    List.pairwise_reverse.mpr (List.pairwise_lt_finRange n)
  rw [hsplit, List.pairwise_append, List.pairwise_cons] at hsorted
  refine ⟨hp, fun q hq => ?_⟩
  have hmem : q ∈ higher ++ p :: lower := by
    rw [← hsplit]
    simp
  obtain hmem | hmem := List.mem_append.mp hmem
  · simpa using hhigher q hmem
  · obtain rfl | hmem := List.mem_cons.mp hmem
    · exact absurd hq (lt_irrefl _)
    · exact absurd hq (lt_asymm (hsorted.2.1.1 q hmem))

namespace History

def empty : History π μ := ⟨[], []⟩

def send (h : History π μ) (p : π) (m : μ) : History π μ := { h with sent := h.sent ++ [(p, m)] }

def receive (h : History π μ) (i : Nat) : History π μ := { h with received := h.received ++ [i] }

def Pending (h : History π μ) (i : Nat) : Prop := i < h.sent.length ∧ i ∉ h.received

/-- How many messages were sent and not received. -/
def backlog (h : History π μ) : Nat := h.sent.length - h.received.length

/-- The message to receive: no pending one has a higher priority, and none of the same
priority is older. -/
def Next [LT π] (h : History π μ) (i : Nat) : Prop :=
  h.Pending i ∧ ∃ p m, h.sent[i]? = some (p, m) ∧
    ∀ j, h.Pending j → ∀ q m', h.sent[j]? = some (q, m') → q < p ∨ (q = p ∧ i ≤ j)

/-- Every receipt is of a message that was sent, and of no message twice. -/
structure Sound (h : History π μ) : Prop where
  nodup : h.received.Nodup
  sent : ∀ i ∈ h.received, i < h.sent.length

variable {h : History π μ} {p q : π} {m : μ} {i j : Nat}

theorem Sound.empty : Sound (History.empty : History π μ) := ⟨List.nodup_nil, by simp [History.empty]⟩

theorem Sound.send (hs : Sound h) (p : π) (m : μ) : Sound (h.send p m) := by
  refine ⟨hs.nodup, fun i hi => ?_⟩
  have := hs.sent i hi
  simp only [History.send, List.length_append, List.length_singleton]
  omega

theorem Sound.receive (hs : Sound h) (hi : h.Pending i) : Sound (h.receive i) := by
  refine ⟨?_, fun j hj => ?_⟩
  · rw [History.receive, List.nodup_append]
    refine ⟨hs.nodup, List.nodup_singleton i, fun a ha b hb => ?_⟩
    rw [List.mem_singleton.mp hb]
    rintro rfl
    exact hi.2 ha
  · obtain hj | hj := List.mem_append.mp hj
    · exact hs.sent j hj
    · rw [List.mem_singleton.mp hj]
      exact hi.1

theorem Sound.length_le (hs : Sound h) : h.received.length ≤ h.sent.length := by
  have hsub : h.received ⊆ List.range h.sent.length := fun i hi =>
    List.mem_range.mpr (hs.sent i hi)
  simpa using (List.subperm_of_subset hs.nodup hsub).length_le

theorem backlog_send (hs : Sound h) (p : π) (m : μ) : (h.send p m).backlog = h.backlog + 1 := by
  have hlen := hs.length_le
  simp only [backlog, send, List.length_append, List.length_singleton]
  omega

theorem backlog_receive (h : History π μ) (i : Nat) : (h.receive i).backlog = h.backlog - 1 := by
  simp only [backlog, receive, List.length_append, List.length_singleton]
  omega

variable [DecidableEq π]

/-- The places of the pending messages of a priority, oldest first. -/
def level (h : History π μ) (p : π) : List Nat :=
  (List.range h.sent.length).filter fun i =>
    decide (i ∉ h.received) && decide (h.sent[i]?.map Prod.fst = some p)

theorem mem_level : i ∈ h.level p ↔ h.Pending i ∧ h.sent[i]?.map Prod.fst = some p := by
  simp [level, Pending, and_assoc]

theorem level_sorted (h : History π μ) (p : π) : (h.level p).Pairwise (· < ·) :=
  List.Pairwise.filter _ List.pairwise_lt_range

theorem level_nodup (h : History π μ) (p : π) : (h.level p).Nodup :=
  (h.level_sorted p).imp Nat.ne_of_lt

theorem level_empty (p : π) : (empty : History π μ).level p = [] := rfl

theorem level_send (hs : Sound h) :
    (h.send p m).level q = if q = p then h.level q ++ [h.sent.length] else h.level q := by
  have hold : (List.range h.sent.length).filter (fun i => decide (i ∉ (h.send p m).received) &&
      decide ((h.send p m).sent[i]?.map Prod.fst = some q)) = h.level q := by
    refine List.filter_congr fun i hi => ?_
    have hget : (h.send p m).sent[i]? = h.sent[i]? :=
      List.getElem?_append_left (List.mem_range.mp hi)
    rw [hget]
    rfl
  have hnew : h.sent.length ∉ h.received := fun hmem => Nat.lt_irrefl _ (hs.sent _ hmem)
  have hlen : (h.send p m).sent.length = h.sent.length + 1 := by simp [send]
  have hget : (h.send p m).sent[h.sent.length]? = some (p, m) := by simp [send]
  rw [level, hlen, List.range_succ, List.filter_append, hold]
  by_cases hq : q = p
  · subst hq
    simp [send, hnew]
  · simp [hget, hq, Ne.symm hq]

theorem level_receive (h : History π μ) (i : Nat) (q : π) :
    (h.receive i).level q = (h.level q).erase i := by
  rw [(h.level_nodup q).erase_eq_filter, level, level, List.filter_filter]
  refine List.filter_congr fun j _ => ?_
  rw [Bool.eq_iff_iff]
  simp only [Bool.and_eq_true, decide_eq_true_eq, bne_iff_ne]
  simp only [receive, List.mem_append, List.mem_singleton, not_or]
  rw [← and_assoc, and_comm (a := j ≠ i)]

theorem next_of_level [LinearOrder π] {l : List Nat} (hl : h.level p = i :: l)
    (hhigher : ∀ q, p < q → h.level q = []) : h.Next i := by
  obtain ⟨hpending, hprio⟩ := mem_level.mp (hl ▸ List.mem_cons_self : i ∈ h.level p)
  obtain ⟨⟨p', m⟩, hget, hp⟩ := Option.map_eq_some_iff.mp hprio
  obtain rfl : p' = p := hp
  refine ⟨hpending, p', m, hget, fun j hj q m' hgetj => ?_⟩
  have hmem : j ∈ h.level q := mem_level.mpr ⟨hj, by simp [hgetj]⟩
  obtain hlt | heq | hgt := lt_trichotomy q p'
  · exact Or.inl hlt
  · subst heq
    rw [hl] at hmem
    have hsorted := h.level_sorted q
    rw [hl, List.pairwise_cons] at hsorted
    obtain rfl | hmem := List.mem_cons.mp hmem
    · exact Or.inr ⟨rfl, Nat.le_refl _⟩
    · exact Or.inr ⟨rfl, Nat.le_of_lt (hsorted.1 j hmem)⟩
  · rw [hhigher q hgt] at hmem
    cases hmem

end History

end PrioFifo
