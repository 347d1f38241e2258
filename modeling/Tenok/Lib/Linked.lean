import Mathlib.Data.List.Basic
import Mathlib.Logic.Function.Iterate

/-!
Cells that are linked one to the next, as they are found from the first one on.
-/
universe u

def Linked {α : Type u} (next : α → α) : α → List α → Prop
  | _, [] => True
  | a, b :: l => a = b ∧ Linked next (next b) l

namespace Linked
variable {α : Type u} {next next' : α → α} {a b : α} {l : List α}

theorem iterate {j : Nat} (h : Linked next a l) (hj : l[j]? = some b) : next^[j] a = b := by
  induction l generalizing a j with
  | nil => simp at hj
  | cons c l ih =>
      obtain ⟨rfl, hrest⟩ := h
      cases j with
      | zero => simpa using hj
      | succ j =>
          rw [Function.iterate_succ_apply]
          exact ih hrest (by simpa using hj)

theorem congr (h : Linked next a l) (hnext : ∀ b ∈ l, next' b = next b) : Linked next' a l := by
  induction l generalizing a with
  | nil => trivial
  | cons c l ih =>
      obtain ⟨rfl, hrest⟩ := h
      refine ⟨rfl, ?_⟩
      rw [hnext a List.mem_cons_self]
      exact ih hrest fun b hb => hnext b (List.mem_cons_of_mem _ hb)

theorem congr_init (h : Linked next a (l ++ [b])) (hnext : ∀ c ∈ l, next' c = next c) :
    Linked next' a (l ++ [b]) := by
  induction l generalizing a with
  | nil => exact h
  | cons c l ih =>
      obtain ⟨rfl, hrest⟩ := h
      refine ⟨rfl, ?_⟩
      rw [hnext a List.mem_cons_self]
      exact ih hrest fun c hc => hnext c (List.mem_cons_of_mem _ hc)

theorem append (h : Linked next a l) (hend : next^[l.length] a = b) : Linked next a (l ++ [b]) := by
  induction l generalizing a with
  | nil => exact ⟨hend, trivial⟩
  | cons c l ih =>
      obtain ⟨rfl, hrest⟩ := h
      exact ⟨rfl, ih hrest hend⟩

theorem left (h : Linked next a (l ++ [b])) : Linked next a l := by
  induction l generalizing a with
  | nil => trivial
  | cons c l ih =>
      obtain ⟨rfl, hrest⟩ := h
      exact ⟨rfl, ih hrest⟩

theorem concat (h : Linked next a (l ++ [b])) (hnext : ∀ c ∈ l, next' c = next c) :
    Linked next' a (l ++ [b, next' b]) := by
  induction l generalizing a with
  | nil => exact ⟨h.1, rfl, trivial⟩
  | cons c l ih =>
      obtain ⟨rfl, hrest⟩ := h
      refine ⟨rfl, ?_⟩
      rw [hnext a List.mem_cons_self]
      exact ih hrest fun c hc => hnext c (List.mem_cons_of_mem _ hc)

end Linked
