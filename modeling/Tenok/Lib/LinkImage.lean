import Mathlib.Data.Set.Insert
import Tenok.Lib.Ring

/-!
Lists of one store that lie in another one, such as raw memory. Each node has a place there, and the
links lead from place to place as they lead from node to node.
-/
namespace Ring
universe u v w x
variable {σ : Type u} {ι : Type v} {κ : Type w} [LinkStore σ ι] {s s' : σ} {t : Cells κ} {f : κ → ι}
  {M N : Set κ} {x v : κ}

/-- The links of the nodes `N` lie in `s` at the places that `f` gives. -/
structure Mirrors (s : σ) (t : Cells κ) (f : κ → ι) (N : Set κ) : Prop where
  next_mem : ∀ x ∈ N, t.next x ∈ N
  prev_mem : ∀ x ∈ N, t.prev x ∈ N
  next_eq : ∀ x ∈ N, next s (f x) = f (t.next x)
  prev_eq : ∀ x ∈ N, prev s (f x) = f (t.prev x)

/-- The links of the nodes `M` share no memory with what `keep` reads. -/
structure Beside {γ : Type x} (keep : σ → γ) (f : κ → ι) (M : Set κ) : Prop where
  setNext : ∀ s, ∀ x ∈ M, ∀ v, keep (setNext s (f x) v) = keep s
  setPrev : ∀ s, ∀ x ∈ M, ∀ v, keep (setPrev s (f x) v) = keep s

namespace Mirrors

theorem congr (h : Mirrors s t f N) (hnext : ∀ x ∈ N, next s' (f x) = next s (f x))
    (hprev : ∀ x ∈ N, prev s' (f x) = prev s (f x)) : Mirrors s' t f N :=
  ⟨h.next_mem, h.prev_mem, fun x hx => (hnext x hx).trans (h.next_eq x hx),
    fun x hx => (hprev x hx).trans (h.prev_eq x hx)⟩

theorem insert (h : Mirrors s t f N) (hnext : t.next x ∈ insert x N) (hprev : t.prev x ∈ insert x N)
    (hn : next s (f x) = f (t.next x)) (hp : prev s (f x) = f (t.prev x)) :
    Mirrors s t f (insert x N) where
  next_mem := Set.forall_mem_insert.mpr ⟨hnext, fun y hy => Set.mem_insert_of_mem _ (h.next_mem y hy)⟩
  prev_mem := Set.forall_mem_insert.mpr ⟨hprev, fun y hy => Set.mem_insert_of_mem _ (h.prev_mem y hy)⟩
  next_eq := Set.forall_mem_insert.mpr ⟨hn, h.next_eq⟩
  prev_eq := Set.forall_mem_insert.mpr ⟨hp, h.prev_eq⟩

variable [DecidableEq κ] (hM : ∀ x ∈ M, ∀ y ∈ M, x ≠ y → Apart σ (f x) (f y)) (hN : N ⊆ M)
include hM hN

theorem setNext (h : Mirrors s t f N) (hx : x ∈ M) (hv : x ∈ N → v ∈ N) :
    Mirrors (setNext s (f x) (f v)) (LinkStore.setNext t x v) f N where
  next_mem y hy := by
    change Function.update t.next x v y ∈ N
    by_cases hyx : y = x
    · rw [hyx, Function.update_self]
      exact hv (hyx ▸ hy)
    · rw [Function.update_of_ne hyx]
      exact h.next_mem y hy
  prev_mem := h.prev_mem
  next_eq y hy := by
    change _ = f (Function.update t.next x v y)
    by_cases hyx : y = x
    · rw [hyx, Function.update_self, LinkStore.next_setNext_self]
    · rw [Function.update_of_ne hyx,
        LinkStore.next_setNext_apart s _ (hM x hx y (hN hy) (Ne.symm hyx)), h.next_eq y hy]
  prev_eq y hy := by
    by_cases hyx : y = x
    · rw [hyx, LinkStore.prev_setNext_self, h.prev_eq x (hyx ▸ hy)]
      rfl
    · rw [LinkStore.prev_setNext_apart s _ (hM x hx y (hN hy) (Ne.symm hyx)), h.prev_eq y hy]
      rfl

theorem setPrev (h : Mirrors s t f N) (hx : x ∈ M) (hv : x ∈ N → v ∈ N) :
    Mirrors (setPrev s (f x) (f v)) (LinkStore.setPrev t x v) f N where
  next_mem := h.next_mem
  prev_mem y hy := by
    change Function.update t.prev x v y ∈ N
    by_cases hyx : y = x
    · rw [hyx, Function.update_self]
      exact hv (hyx ▸ hy)
    · rw [Function.update_of_ne hyx]
      exact h.prev_mem y hy
  next_eq y hy := by
    by_cases hyx : y = x
    · rw [hyx, LinkStore.next_setPrev_self, h.next_eq x (hyx ▸ hy)]
      rfl
    · rw [LinkStore.next_setPrev_apart s _ (hM x hx y (hN hy) (Ne.symm hyx)), h.next_eq y hy]
      rfl
  prev_eq y hy := by
    change _ = f (Function.update t.prev x v y)
    by_cases hyx : y = x
    · rw [hyx, Function.update_self, LinkStore.prev_setPrev_self]
    · rw [Function.update_of_ne hyx,
        LinkStore.prev_setPrev_apart s _ (hM x hx y (hN hy) (Ne.symm hyx)), h.prev_eq y hy]

end Mirrors

end Ring
