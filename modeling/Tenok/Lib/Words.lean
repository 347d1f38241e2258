import Mathlib.Data.List.Basic

/-!
The words of a list: its longest pieces without a separator, in order.
-/
namespace Words
universe u
variable {α : Type u} [DecidableEq α] {sep a : α} {l w : List α}

def words (sep : α) (l : List α) : List (List α) := (l.splitOn sep).filter (· ≠ [])

@[simp] theorem words_nil : words sep [] = [] := rfl

theorem words_cons_sep : words sep (sep :: l) = words sep l := by
  rw [words, List.splitOn_cons_eq_if_modifyHead, if_pos (BEq.refl sep)]
  rfl

theorem words_replicate (n : Nat) : words sep (List.replicate n sep ++ l) = words sep l := by
  induction n with
  | zero => rfl
  | succ n ih => rw [List.replicate_succ, List.cons_append, words_cons_sep, ih]

theorem words_cons_ne_nil (ha : a ≠ sep) : words sep (a :: l) ≠ [] := by
  obtain ⟨w, ws, hw⟩ := List.exists_cons_of_ne_nil (List.splitOn_ne_nil sep l)
  rw [words, List.splitOn_cons_eq_if_modifyHead, if_neg (beq_iff_eq.not.mpr ha), hw,
    List.modifyHead_cons, List.filter_cons, if_pos (decide_eq_true (List.cons_ne_nil a w))]
  exact List.cons_ne_nil _ _

theorem words_eq_singleton (hw : sep ∉ w) (hne : w ≠ []) : words sep w = [w] := by
  rw [words, List.splitOn_eq_singleton hw, List.filter_cons, if_pos (decide_eq_true hne),
    List.filter_nil]

theorem exists_replicate_append (sep : α) (l : List α) :
    ∃ n r, l = List.replicate n sep ++ r ∧ r.head? ≠ some sep := by
  induction l with
  | nil => exact ⟨0, [], rfl, nofun⟩
  | cons b l ih =>
      by_cases hb : b = sep
      · obtain ⟨n, r, rfl, hr⟩ := ih
        exact ⟨n + 1, r, by rw [hb, List.replicate_succ, List.cons_append], hr⟩
      · exact ⟨0, b :: l, rfl, fun h => hb (Option.some.inj h)⟩

theorem words_append_sep (hw : sep ∉ w) (hne : w ≠ []) :
    words sep (w ++ sep :: l) = w :: words sep l := by
  rw [words, List.splitOn_append_cons_self_of_not_mem hw, List.filter_cons,
    if_pos (decide_eq_true hne), words]

end Words
