import Mathlib.Logic.Basic

/-!
Runs of a deterministic labelled step function, as executable folds, and the
invariant rules. Both rules ask for every step to meet a condition in the state
it is taken in, so they serve systems that are only well behaved under it.
-/
namespace Runs
universe u v w
variable {σ : Type u} {α : Type v}

/-- A run of a deterministic step function, as an executable fold. -/
def exec (f : σ → α → Option σ) : σ → List α → Option σ
  | s, [] => some s
  | s, a :: as => (f s a).bind fun t => exec f t as

/-- Every label of the list meets `ok` in the state it is taken in. -/
def AllOk (ok : σ → α → Prop) (f : σ → α → Option σ) : σ → List α → Prop
  | _, [] => True
  | s, a :: as => ok s a ∧ ∀ t, f s a = some t → AllOk ok f t as

instance AllOk.decidable {ok : σ → α → Prop} {f : σ → α → Option σ}
    [∀ s a, Decidable (ok s a)] : (as : List α) → (s : σ) → Decidable (AllOk ok f s as)
  | [], _ => inferInstanceAs (Decidable True)
  | a :: as, s =>
      match h : f s a with
      | some t =>
          have : Decidable (AllOk ok f t as) := AllOk.decidable as t
          decidable_of_iff (ok s a ∧ AllOk ok f t as) (by simp [AllOk, h])
      | none => decidable_of_iff (ok s a) (by simp [AllOk, h])

theorem exec_of_allOk {ok : σ → α → Prop} {f : σ → α → Option σ} {I : σ → Prop}
    (hstep : ∀ s a, I s → ok s a → ∃ t, f s a = some t ∧ I t) {s : σ} {as : List α}
    (initial : I s) (hok : AllOk ok f s as) : ∃ t, exec f s as = some t ∧ I t := by
  induction as generalizing s with
  | nil => exact ⟨s, rfl, initial⟩
  | cons a as ih =>
      obtain ⟨t, ht, hinv⟩ := hstep s a initial hok.1
      obtain ⟨u, hu, hinvu⟩ := ih hinv (hok.2 t ht)
      exact ⟨u, by simp only [exec, ht, Option.bind_some, hu], hinvu⟩

theorem exec_invariant {ok : σ → α → Prop} {f : σ → α → Option σ} {I : σ → Prop}
    (hstep : ∀ s a t, I s → ok s a → f s a = some t → I t) {s t : σ} {as : List α}
    (initial : I s) (hok : AllOk ok f s as) (hrun : exec f s as = some t) : I t := by
  induction as generalizing s with
  | nil =>
      obtain rfl := Option.some.inj hrun
      exact initial
  | cons a as ih =>
      simp only [exec, Option.bind_eq_some_iff] at hrun
      obtain ⟨u, hu, hrest⟩ := hrun
      exact ih (hstep s a u initial hok.1 hu) (hok.2 u hu) hrest

/-- A refinement mapping takes allowed runs to runs, if it takes the allowed steps from states with
the invariant to steps. -/
theorem exec_refines {ok : σ → α → Prop} {f : σ → α → Option σ} {I : σ → Prop} {τ : Type w}
    {g : τ → α → Option τ} {r : σ → τ}
    (hstep : ∀ s a t, I s → ok s a → f s a = some t → I t ∧ g (r s) a = some (r t)) {s t : σ}
    {as : List α} (initial : I s) (hok : AllOk ok f s as) (hrun : exec f s as = some t) :
    exec g (r s) as = some (r t) := by
  induction as generalizing s with
  | nil =>
      obtain rfl := Option.some.inj hrun
      rfl
  | cons a as ih =>
      simp only [exec, Option.bind_eq_some_iff] at hrun
      obtain ⟨u, hu, hrest⟩ := hrun
      obtain ⟨hinv, hrefines⟩ := hstep s a u initial hok.1 hu
      rw [exec, hrefines, Option.bind_some]
      exact ih hinv (hok.2 u hu) hrest

theorem exec_constant {ok : σ → α → Prop} {f : σ → α → Option σ} {I P : σ → Prop} {β : Type w}
    {m : σ → β} (hstep : ∀ s a t, I s → ok s a → f s a = some t → P s → P t → I t ∧ m t = m s)
    {s t : σ} {as : List α} (initial : I s) (hok : AllOk ok f s as)
    (hP : ∀ n u, exec f s (as.take n) = some u → P u) (hrun : exec f s as = some t) :
    m t = m s := by
  induction as generalizing s with
  | nil =>
      obtain rfl := Option.some.inj hrun
      rfl
  | cons a as ih =>
      simp only [exec, Option.bind_eq_some_iff] at hrun
      obtain ⟨u, hu, hrest⟩ := hrun
      have hafter : ∀ n v, exec f u (as.take n) = some v → P v := fun n v hv =>
        hP (n + 1) v (by rw [List.take_succ_cons, exec, hu, Option.bind_some, hv])
      obtain ⟨hinv, hsame⟩ := hstep s a u initial hok.1 hu (hP 0 s rfl) (hafter 0 u rfl)
      exact (ih hinv (hok.2 u hu) hafter hrest).trans hsame

theorem allOk_of_exec {ok : σ → α → Prop} [∀ s a, Decidable (ok s a)] {f : σ → α → Option σ}
    {s t : σ} {as : List α} (h : exec (fun s a => if ok s a then f s a else none) s as = some t) :
    AllOk ok f s as ∧ exec f s as = some t := by
  induction as generalizing s with
  | nil => exact ⟨trivial, h⟩
  | cons a as ih =>
      simp only [exec, Option.bind_eq_some_iff, Option.ite_none_right_eq_some] at h
      obtain ⟨u, ⟨hok, hu⟩, hrest⟩ := h
      obtain ⟨hall, hrun⟩ := ih hrest
      refine ⟨⟨hok, fun v hv => ?_⟩, by rw [exec, hu, Option.bind_some, hrun]⟩
      obtain rfl := Option.some.inj (hu.symm.trans hv)
      exact hall

theorem allOk_of_forall {ok : σ → α → Prop} {f : σ → α → Option σ} {s : σ} {as : List α}
    (h : ∀ a ∈ as, ∀ s, ok s a) : AllOk ok f s as := by
  induction as generalizing s with
  | nil => trivial
  | cons a as ih =>
      exact ⟨h a List.mem_cons_self s, fun t _ => ih fun b hb => h b (List.mem_cons_of_mem a hb)⟩

theorem exec_total {f : σ → α → Option σ} (hstep : ∀ s a, ∃ t, f s a = some t) (s : σ)
    (as : List α) : ∃ t, exec f s as = some t := by
  have hok : AllOk (fun _ _ => True) f s as := allOk_of_forall fun _ _ _ => trivial
  obtain ⟨t, ht, -⟩ := exec_of_allOk (I := fun _ => True)
    (fun s a _ _ => (hstep s a).imp fun _ h => ⟨h, trivial⟩) trivial hok
  exact ⟨t, ht⟩

theorem exec_keeps {f : σ → α → Option σ} {I : σ → Prop}
    (hstep : ∀ s a t, I s → f s a = some t → I t) {s t : σ} {as : List α} (initial : I s)
    (hrun : exec f s as = some t) : I t := by
  have hok : AllOk (fun _ _ => True) f s as := allOk_of_forall fun _ _ _ => trivial
  exact exec_invariant (fun s a t h _ => hstep s a t h) initial hok hrun

/-- In runs whose steps meet `ok₀`, the condition `ok` on a step says exactly whether the
property survives it, so on all steps it says exactly whether it holds in every state. -/
theorem allOk_iff_of_allOk {ok₀ ok : σ → α → Prop} {f : σ → α → Option σ} {I P : σ → Prop}
    (hinv : ∀ s a t, I s → ok₀ s a → f s a = some t → I t)
    (hstep : ∀ s a t, I s → ok₀ s a → P s → f s a = some t → (ok s a ↔ P t)) {s t : σ}
    {as : List α} (initial : I s) (hP : P s) (h₀ : AllOk ok₀ f s as)
    (hrun : exec f s as = some t) :
    AllOk ok f s as ↔ ∀ n u, exec f s (as.take n) = some u → P u := by
  induction as generalizing s with
  | nil =>
      refine iff_of_true trivial fun n u hu => ?_
      rw [List.take_nil] at hu
      obtain rfl := Option.some.inj hu
      exact hP
  | cons a as ih =>
      simp only [exec, Option.bind_eq_some_iff] at hrun
      obtain ⟨u, hu, hrest⟩ := hrun
      have hu' := hinv s a u initial h₀.1 hu
      have hrest₀ := h₀.2 u hu
      refine ⟨fun hok n v hv => ?_, fun h => ?_⟩
      · cases n with
        | zero =>
            obtain rfl := Option.some.inj hv
            exact hP
        | succ n =>
            rw [List.take_succ_cons, exec, hu, Option.bind_some] at hv
            have hPu := (hstep s a u initial h₀.1 hP hu).mp hok.1
            exact (ih hu' hPu hrest₀ hrest).mp (hok.2 u hu) n v hv
      · have hafter : ∀ n v, exec f u (as.take n) = some v → P v := fun n v hv =>
          h (n + 1) v (by rw [List.take_succ_cons, exec, hu, Option.bind_some, hv])
        have hPu := hafter 0 u rfl
        refine ⟨(hstep s a u initial h₀.1 hP hu).mpr hPu, fun v hv => ?_⟩
        obtain rfl := Option.some.inj (hu.symm.trans hv)
        exact (ih hu' hPu hrest₀ hrest).mpr hafter

theorem allOk_iff_forall_take {ok : σ → α → Prop} {f : σ → α → Option σ} {I P : σ → Prop}
    (hinv : ∀ s a t, I s → f s a = some t → I t)
    (hstep : ∀ s a t, I s → P s → f s a = some t → (ok s a ↔ P t)) {s t : σ} {as : List α}
    (initial : I s) (hP : P s) (hrun : exec f s as = some t) :
    AllOk ok f s as ↔ ∀ n u, exec f s (as.take n) = some u → P u :=
  allOk_iff_of_allOk (fun s a t h _ => hinv s a t h)
    (fun s a t h _ => hstep s a t h) initial hP (allOk_of_forall fun _ _ _ => trivial) hrun

/-- Where the condition on a step says exactly whether the property holds after it, whatever
held before, it says on all steps whether the property holds after every one of them. -/
theorem allOk_iff_forall_take_succ {ok : σ → α → Prop} {f : σ → α → Option σ} {I P : σ → Prop}
    (hinv : ∀ s a t, I s → f s a = some t → I t)
    (hstep : ∀ s a t, I s → f s a = some t → (ok s a ↔ P t)) {s t : σ} {as : List α}
    (initial : I s) (hrun : exec f s as = some t) :
    AllOk ok f s as ↔ ∀ n < as.length, ∀ u, exec f s (as.take (n + 1)) = some u → P u := by
  induction as generalizing s with
  | nil => exact iff_of_true trivial fun n hn => absurd hn (Nat.not_lt_zero n)
  | cons a as ih =>
      simp only [exec, Option.bind_eq_some_iff] at hrun
      obtain ⟨u, hu, hrest⟩ := hrun
      have hok := hstep s a u initial hu
      have hafter := ih (hinv s a u initial hu) hrest
      have htake : ∀ n v, exec f s ((a :: as).take (n + 1)) = some v ↔
          exec f u (as.take n) = some v := by
        intro n v
        rw [List.take_succ_cons, exec, hu, Option.bind_some]
      constructor
      · intro h n hn v hv
        rw [htake] at hv
        cases n with
        | zero =>
            obtain rfl := Option.some.inj hv
            exact hok.mp h.1
        | succ n => exact hafter.mp (h.2 u hu) n (Nat.lt_of_succ_lt_succ hn) v hv
      · intro h
        refine ⟨hok.mpr (h 0 (Nat.succ_pos _) u ((htake 0 u).mpr rfl)), fun v hv => ?_⟩
        obtain rfl := Option.some.inj (hu.symm.trans hv)
        exact hafter.mpr fun n hn v hv => h (n + 1) (Nat.succ_lt_succ hn) v ((htake _ v).mpr hv)

/-- Allowed steps that bring a measure down get it to zero in as many steps as it is. -/
theorem exec_measure {ok : α → Prop} {f : σ → α → Option σ} {I : σ → Prop} {m : σ → Nat}
    (hstep : ∀ s a, I s → ok a → ∃ t, f s a = some t ∧ I t ∧ m t ≤ m s - 1) {s : σ} {as : List α}
    (initial : I s) (hok : ∀ a ∈ as, ok a) (hlen : m s ≤ as.length) :
    ∃ t, exec f s as = some t ∧ I t ∧ m t = 0 := by
  induction as generalizing s with
  | nil => exact ⟨s, rfl, initial, Nat.eq_zero_of_le_zero hlen⟩
  | cons a as ih =>
      obtain ⟨t, ht, hinv, hdown⟩ := hstep s a initial (hok a List.mem_cons_self)
      have hlen' : m t ≤ as.length := by
        rw [List.length_cons] at hlen
        omega
      obtain ⟨u, hu, hdone⟩ := ih hinv (fun b hb => hok b (List.mem_cons_of_mem a hb)) hlen'
      exact ⟨u, by simp only [exec, ht, Option.bind_some, hu], hdone⟩

theorem exec_append (f : σ → α → Option σ) (s : σ) (as bs : List α) :
    exec f s (as ++ bs) = (exec f s as).bind fun t => exec f t bs := by
  induction as generalizing s with
  | nil => rfl
  | cons a as ih =>
      simp only [List.cons_append, exec]
      cases f s a with
      | none => rfl
      | some t => exact ih t

theorem allOk_mono {ok ok' : σ → α → Prop} {f : σ → α → Option σ} {s : σ} {as : List α}
    (hmono : ∀ s a, ok s a → ok' s a) (h : AllOk ok f s as) : AllOk ok' f s as := by
  induction as generalizing s with
  | nil => trivial
  | cons a as ih => exact ⟨hmono s a h.1, fun t ht => ih (h.2 t ht)⟩

theorem allOk_and {ok ok' : σ → α → Prop} {f : σ → α → Option σ} {s : σ} {as : List α}
    (h : AllOk ok f s as) (h' : AllOk ok' f s as) : AllOk (fun s a => ok s a ∧ ok' s a) f s as := by
  induction as generalizing s with
  | nil => trivial
  | cons a as ih => exact ⟨⟨h.1, h'.1⟩, fun t ht => ih (h.2 t ht) (h'.2 t ht)⟩

theorem allOk_append {ok : σ → α → Prop} {f : σ → α → Option σ} {s t : σ} {as bs : List α}
    (hrun : exec f s as = some t) (has : AllOk ok f s as) (hbs : AllOk ok f t bs) :
    AllOk ok f s (as ++ bs) := by
  induction as generalizing s with
  | nil =>
      obtain rfl := Option.some.inj hrun
      exact hbs
  | cons a as ih =>
      refine ⟨has.1, fun u hu => ih ?_ (has.2 u hu)⟩
      simpa only [exec, hu, Option.bind_some] using hrun

end Runs
