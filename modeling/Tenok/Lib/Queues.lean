import Mathlib.Data.List.Nodup
import Mathlib.Data.Set.Basic
import Tenok.Lib.Ring

/-!
A family of circular lists over one set of items. The node of a list is its head or
an item, an item is in one list at most, and only the lists of a set of heads are
in use: the links of other heads mean nothing.
-/
namespace Queues
open Ring
universe u v
variable {η : Type u} {α : Type v}

def enqueue [DecidableEq η] (L : η → List α) (a : α) (h : η) : η → List α :=
  Function.update L h (L h ++ [a])

def dequeue [DecidableEq α] (L : η → List α) (a : α) : η → List α := fun h => (L h).erase a

def transfer [DecidableEq η] [DecidableEq α] (L : η → List α) (a : α) (h : η) : η → List α :=
  enqueue (dequeue L a) a h

variable {L : η → List α} {V : Set η} {a b : α} {h g : η}

theorem mem_enqueue [DecidableEq η] : b ∈ enqueue L a h g ↔ b ∈ L g ∨ b = a ∧ g = h := by
  by_cases hg : g = h
  · subst hg
    simp [enqueue]
  · simp [enqueue, hg]

theorem enqueue_of_ne [DecidableEq η] (hne : g ≠ h) : enqueue L a h g = L g := Function.update_of_ne hne ..

theorem dequeue_of_notMem [DecidableEq α] (hmem : a ∉ L g) : dequeue L a g = L g := List.erase_of_not_mem hmem

variable [DecidableEq η] [DecidableEq α]

/-- The circular lists at the heads in use are those that `L` tells. -/
structure Rings (s : Cells (η ⊕ α)) (V : Set η) (L : η → List α) : Prop where
  ring : ∀ h ∈ V, IsRing s (.inl h) ((L h).map .inr)
  unique : ∀ {h g a}, a ∈ L h → a ∈ L g → h = g
  inUse : ∀ {h a}, a ∈ L h → h ∈ V

namespace Rings
variable {s s' : Cells (η ⊕ α)}

theorem nodup (r : Rings s V L) (h : η) : (L h).Nodup := by
  by_cases hV : h ∈ V
  · exact (List.nodup_cons.mp (r.ring h hV).nodup).2.of_map
  · rw [List.eq_nil_iff_forall_not_mem.mpr fun a ha => hV (r.inUse ha)]
    exact List.nodup_nil

theorem mem_dequeue (r : Rings s V L) : b ∈ dequeue L a g ↔ b ≠ a ∧ b ∈ L g :=
  (r.nodup g).mem_erase_iff

theorem mem_transfer (r : Rings s V L) :
    b ∈ transfer L a h g ↔ (b ≠ a ∧ b ∈ L g) ∨ b = a ∧ g = h := by
  rw [transfer, mem_enqueue, r.mem_dequeue]

theorem eq_of_mem (r : Rings s V L) {x : η ⊕ α} (hx : x ∈ Sum.inl h :: (L h).map .inr)
    (hx' : x ∈ Sum.inl g :: (L g).map .inr) : h = g := by
  cases x with
  | inl i => simp_all
  | inr b =>
      simp only [List.mem_cons, reduceCtorEq, List.mem_map, Sum.inr.injEq, exists_eq_right,
        false_or] at hx hx'
      exact r.unique hx hx'

theorem ring_frame (r : Rings s V L) (hV : h ∈ V)
    (hnext : ∀ x ∈ Sum.inl h :: (L h).map .inr, s'.next x = s.next x)
    (hprev : ∀ x ∈ Sum.inl h :: (L h).map .inr, s'.prev x = s.prev x) :
    IsRing s' (.inl h) ((L h).map .inr) :=
  (r.ring h hV).frame hnext hprev

theorem shrink (r : Rings s V L) {W : Set η} (hW : W ⊆ V) (hempty : ∀ h, h ∉ W → L h = []) :
    Rings s W L where
  ring h hh := r.ring h (hW hh)
  unique := r.unique
  inUse {h a} ha := by
    by_contra hh
    simp [hempty h hh] at ha

end Rings

end Queues
