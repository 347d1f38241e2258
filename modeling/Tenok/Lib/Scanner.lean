import Mathlib.Logic.Basic

/-!
Scanners: step functions that read a list item by item and may stop with an error.
-/
namespace Scanner
universe u v w
variable {σ : Type u} {α : Type v} {ε : Type w} {step : σ → α → Except ε σ} {s s' : σ} {a : α}
  {l pre : List α}

theorem run_reads {Reads : List α → σ → Prop}
    (hsnoc : ∀ pre a s s', Reads pre s → step s a = .ok s' → Reads (pre ++ [a]) s')
    (hread : Reads pre s) (h : l.foldlM step s = .ok s') : Reads (pre ++ l) s' := by
  induction l generalizing s pre with
  | nil =>
      cases h
      rwa [List.append_nil]
  | cons a l ih =>
      rw [List.foldlM_cons] at h
      cases hnext : step s a with
      | error e =>
          rw [hnext] at h
          cases h
      | ok s₁ =>
          rw [hnext] at h
          rw [List.append_cons pre a l]
          exact ih (hsnoc pre a s s₁ hread hnext) h

theorem run_error {P : ε → Prop} {e : ε} (hstep : ∀ s a, step s a = .error e → P e)
    (h : l.foldlM step s = .error e) : P e := by
  induction l generalizing s with
  | nil => cases h
  | cons a l ih =>
      rw [List.foldlM_cons] at h
      cases hnext : step s a with
      | error e' =>
          rw [hnext] at h
          cases h
          exact hstep s a hnext
      | ok s' =>
          rw [hnext] at h
          exact ih h

theorem run_gather (read : List α → σ)
    (hnext : ∀ pre, ∀ a ∈ l, step (read pre) a = .ok (read (pre ++ [a]))) (pre : List α) :
    l.foldlM step (read pre) = .ok (read (pre ++ l)) := by
  induction l generalizing pre with
  | nil =>
      rw [List.append_nil]
      rfl
  | cons a l ih =>
      rw [List.foldlM_cons, hnext pre a List.mem_cons_self, List.append_cons pre a l]
      exact ih (fun pre' b hb => hnext pre' b (List.mem_cons_of_mem a hb)) (pre ++ [a])

theorem run_skip (h : step s a = .ok s) (k : Nat) :
    (List.replicate k a).foldlM step s = .ok s := by
  induction k with
  | zero => rfl
  | succ k ih =>
      rw [List.replicate_succ, List.foldlM_cons, h]
      exact ih

end Scanner
