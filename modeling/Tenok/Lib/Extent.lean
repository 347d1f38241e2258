import Mathlib.Data.List.Count
import Mathlib.Order.Interval.Set.Basic

/-!
Lists of extents that tile a range: every point of the range lies in exactly one
extent. Counting the extents around a point makes splitting and joining additive,
whatever the order of the list.
-/
namespace Extents

structure Extent where
  start : Nat
  len : Nat
deriving DecidableEq, Repr

def Extent.Contains (e : Extent) (x : Nat) : Prop := e.start ≤ x ∧ x < e.start + e.len

instance (e : Extent) (x : Nat) : Decidable (e.Contains x) :=
  inferInstanceAs (Decidable (_ ∧ _))

def cover (l : List Extent) (x : Nat) : Nat := l.countP fun e => decide (e.Contains x)

variable {lo hi : Nat} {e f g : Extent} {l l' : List Extent}

@[simp] theorem cover_nil (x : Nat) : cover [] x = 0 := rfl

@[simp] theorem cover_cons (e : Extent) (l : List Extent) (x : Nat) :
    cover (e :: l) x = cover l x + if e.Contains x then 1 else 0 := by
  by_cases h : e.Contains x <;> simp [cover, h]

@[simp] theorem cover_append (l l' : List Extent) (x : Nat) :
    cover (l ++ l') x = cover l x + cover l' x := List.countP_append ..

theorem contains_join {a b m n : Nat} (h : a + m = b) (x : Nat) :
    (if (Extent.mk a m).Contains x then 1 else 0) + (if (Extent.mk b n).Contains x then 1 else 0) =
      if (Extent.mk a (m + n)).Contains x then 1 else 0 := by
  split <;> split <;> split <;> simp only [Extent.Contains] at * <;> omega

def Tiles (lo hi : Nat) (l : List Extent) : Prop :=
  ∀ x, cover l x = if lo ≤ x ∧ x < hi then 1 else 0

theorem Tiles.of_cover_eq (h : Tiles lo hi l) (hl : ∀ x, cover l' x = cover l x) :
    Tiles lo hi l' := fun x => (hl x).trans (h x)

theorem tiles_singleton (lo hi : Nat) (h : lo ≤ hi) : Tiles lo hi [⟨lo, hi - lo⟩] := by
  intro x
  simp only [cover_cons, cover_nil]
  split <;> split <;> simp only [Extent.Contains] at * <;> omega

theorem cover_pos_iff {x : Nat} : 0 < cover l x ↔ ∃ e ∈ l, e.Contains x := by
  simp [cover, List.countP_pos_iff]

theorem Tiles.contains_iff (h : Tiles lo hi l) (x : Nat) :
    (∃ e ∈ l, e.Contains x) ↔ lo ≤ x ∧ x < hi := by
  rw [← cover_pos_iff, h x]
  split <;> simp_all

theorem Tiles.inside (h : Tiles lo hi l) (he : e ∈ l) (hpos : 0 < e.len) :
    lo ≤ e.start ∧ e.start + e.len ≤ hi := by
  have hfirst := (h.contains_iff e.start).mp ⟨e, he, Nat.le_refl _, by omega⟩
  have hlast := (h.contains_iff (e.start + e.len - 1)).mp ⟨e, he, by omega, by omega⟩
  omega

theorem pairwise_of_cover_le (h : ∀ x, cover l x ≤ 1) :
    l.Pairwise fun e f => ∀ x, e.Contains x → ¬ f.Contains x := by
  induction l with
  | nil => exact .nil
  | cons e l ih =>
      refine List.pairwise_cons.mpr ⟨?_, ih fun x => ?_⟩
      · intro f hf x hex hfx
        have hx := h x
        have hpos := cover_pos_iff.mpr ⟨f, hf, hfx⟩
        rw [cover_cons, if_pos hex] at hx
        omega
      · have hx := h x
        rw [cover_cons] at hx
        omega

theorem Tiles.disjoint (h : Tiles lo hi l) :
    l.Pairwise fun e f => ∀ x, e.Contains x → ¬ f.Contains x := by
  apply pairwise_of_cover_le
  intro x
  rw [h x]
  split <;> omega

theorem Extent.before_or_after (he : 0 < e.len) (hf : 0 < f.len)
    (h : ∀ x, e.Contains x → ¬ f.Contains x) :
    e.start + e.len ≤ f.start ∨ f.start + f.len ≤ e.start := by
  by_contra hmeet
  have hmax := h (max e.start f.start) ⟨by omega, by omega⟩
  exact hmax ⟨by omega, by omega⟩

end Extents
