import Mathlib.Data.List.Range
import Mathlib.Data.Nat.ModEq
import Mathlib.Logic.Function.Basic

/-!
A queue in an array of `size` cells: `count` elements from `start` on, continued at the
beginning of the array where it ends.
-/
namespace RingBuffer
universe u
variable {α : Type u} {cells : Nat → α} {size start count i j p : Nat} {a : α}

def place (size start j : Nat) : Nat := (start + j) % size

def bump (size p : Nat) : Nat := if size ≤ p + 1 then 0 else p + 1

/-- The elements, oldest first. -/
def contents (cells : Nat → α) (size start count : Nat) : List α :=
  (List.range count).map fun j => cells (place size start j)

@[simp]
theorem length_contents : (contents cells size start count).length = count := by simp [contents]

theorem bump_eq (hp : p < size) : bump size p = (p + 1) % size := by
  rw [bump]
  split
  · next hle =>
      have heq : p + 1 = size := by omega
      rw [heq, Nat.mod_self]
  · next hlt => exact (Nat.mod_eq_of_lt (by omega)).symm

theorem bump_lt (hp : p < size) : bump size p < size := by
  rw [bump_eq hp]
  exact Nat.mod_lt _ (by omega)

theorem place_injective (hi : i < size) (hj : j < size) (h : place size start i = place size start j) :
    i = j := by
  have hmod : i % size = j % size := Nat.ModEq.add_left_cancel' start h
  rwa [Nat.mod_eq_of_lt hi, Nat.mod_eq_of_lt hj] at hmod

theorem place_bump (hstart : start < size) :
    place size (bump size start) j = place size start (j + 1) := by
  rw [place, place, bump_eq hstart, Nat.mod_add_mod, Nat.add_right_comm, Nat.add_assoc]

theorem contents_inj {cells' : Nat → α} : contents cells size start count = contents cells' size start count ↔
    ∀ j < count, cells (place size start j) = cells' (place size start j) := by
  simp [contents]

theorem contents_push (cells : Nat → α) (start : Nat) (hcount : count < size) (a : α) :
    contents (Function.update cells (place size start count) a) size start (count + 1) =
      contents cells size start count ++ [a] := by
  rw [contents, List.range_succ, List.map_append, List.map_singleton, Function.update_self]
  refine congrArg (· ++ [a]) (List.map_congr_left fun j hj => ?_)
  have hlt := List.mem_range.mp hj
  refine Function.update_of_ne (fun heq => ?_) ..
  have := place_injective (hlt.trans hcount) hcount heq
  omega

theorem contents_pop (hstart : start < size) :
    contents cells size start (count + 1) =
      cells start :: contents cells size (bump size start) count := by
  rw [contents, List.range_succ_eq_map, List.map_cons, List.map_map]
  refine congrArg₂ List.cons ?_ (List.map_congr_left fun j _ => ?_)
  · rw [place, Nat.add_zero, Nat.mod_eq_of_lt hstart]
  · rw [Function.comp_apply, place_bump hstart]

theorem contents_overwrite (cells : Nat → α) (hstart : start < size) (a : α) :
    contents (Function.update cells start a) size (bump size start) size =
      (contents cells size start size).tail ++ [a] := by
  obtain ⟨n, rfl⟩ : ∃ n, size = n + 1 := ⟨size - 1, by omega⟩
  have hlast : place (n + 1) (bump (n + 1) start) n = start := by
    rw [place_bump hstart, place, Nat.add_mod_right, Nat.mod_eq_of_lt hstart]
  have hpush := contents_push cells (bump (n + 1) start) (Nat.lt_succ_self n) a
  rw [hlast] at hpush
  rw [hpush, contents_pop hstart, List.tail_cons]

end RingBuffer
