import Mathlib.Data.List.Nodup
import Mathlib.Logic.Function.Basic

/-!
Units of a store that are given out one by one to owners who keep them, each in the order in
which it got them. Units may also be in use by nobody.
-/
universe u v

structure Allotment {ι : Type u} {β : Type v} (used : Set β) (own : ι → List β) : Prop where
  used : ∀ i, ∀ b ∈ own i, b ∈ used
  nodup : ∀ i, (own i).Nodup
  apart : ∀ i j, ∀ b ∈ own i, b ∈ own j → i = j

namespace Allotment
variable {ι : Type u} {β : Type v} {used used' : Set β} {own : ι → List β} {b : β}

theorem nil (used : Set β) : Allotment used fun _ : ι => [] :=
  ⟨by simp, by simp, by simp⟩

theorem mono (h : Allotment used own) (hused : used ⊆ used') : Allotment used' own :=
  ⟨fun i b hb => hused (h.used i b hb), h.nodup, h.apart⟩

theorem grow [DecidableEq ι] (h : Allotment used own) (hb : b ∉ used) (i : ι) :
    Allotment (insert b used) (Function.update own i (own i ++ [b])) := by
  have hfree : ∀ j, b ∉ own j := fun j hj => hb (h.used j b hj)
  have hmem : ∀ {j c}, c ∈ Function.update own i (own i ++ [b]) j ↔
      c ∈ own j ∨ (j = i ∧ c = b) := by
    intro j c
    by_cases hj : j = i
    · subst hj
      simp
    · simp [hj]
  refine ⟨fun j c hc => ?_, fun j => ?_, fun j j' c hc hc' => ?_⟩
  · obtain hc | ⟨-, rfl⟩ := hmem.mp hc
    · exact Or.inr (h.used j c hc)
    · exact Or.inl rfl
  · by_cases hj : j = i
    · subst hj
      rw [Function.update_self]
      exact (List.nodup_append_comm.mp (List.nodup_cons.mpr ⟨hfree j, h.nodup j⟩))
    · rw [Function.update_of_ne hj]
      exact h.nodup j
  · obtain hold | ⟨rfl, rfl⟩ := hmem.mp hc
    · obtain hold' | ⟨-, rfl⟩ := hmem.mp hc'
      · exact h.apart j j' c hold hold'
      · exact absurd hold (hfree j)
    · obtain hold' | ⟨hj, -⟩ := hmem.mp hc'
      · exact absurd hold' (hfree j')
      · exact hj.symm

end Allotment
