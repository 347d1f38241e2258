import Mathlib.Data.List.Basic
import Mathlib.Logic.Function.Basic

/-!
A memory of cells that are read and written in runs.
-/
namespace ByteMemory
universe u
variable {β : Type u} {m : Nat → β} {a b n : Nat} {l : List β}

def read (m : Nat → β) (a n : Nat) : List β := (List.range n).map fun i => m (a + i)

def write (m : Nat → β) (a : Nat) (l : List β) : Nat → β := fun x =>
  if a ≤ x then (l[x - a]?).getD (m x) else m x

@[simp] theorem length_read (m : Nat → β) (a n : Nat) : (read m a n).length = n := by
  simp [read]

theorem getElem?_read (hb : b < n) : (read m a n)[b]? = some (m (a + b)) := by
  simp [read, hb]

theorem write_inside (hb : b < l.length) : write m a l (a + b) = l[b] := by
  simp [write, hb]

theorem write_outside (hb : b < a ∨ a + l.length ≤ b) : write m a l b = m b := by
  rw [write]
  split
  · have hnone : l[b - a]? = none := by
      rw [List.getElem?_eq_none_iff]
      omega
    rw [hnone, Option.getD_none]
  · rfl

theorem read_write_outside (h : b + n ≤ a ∨ a + l.length ≤ b) :
    read (write m a l) b n = read m b n := by
  refine List.map_congr_left fun i hi => write_outside ?_
  have hlt := List.mem_range.mp hi
  omega

theorem read_write (m : Nat → β) (a : Nat) (l : List β) : read (write m a l) a l.length = l := by
  refine List.ext_getElem (length_read ..) fun i hi hi' => ?_
  simp [read, write_inside hi']

theorem take_read {k : Nat} (hk : k ≤ n) : (read m a n).take k = read m a k := by
  rw [read, ← List.map_take, List.take_range, Nat.min_eq_left hk, read]

theorem read_add (m : Nat → β) (a n k : Nat) : read m a (n + k) = read m a n ++ read m (a + n) k := by
  rw [read, List.range_add, List.map_append, List.map_map, read, read]
  refine congrArg _ (List.map_congr_left fun i _ => ?_)
  rw [Function.comp_apply, Nat.add_assoc]

theorem write_nil : write m a [] = m := by
  funext x
  simp [write]

theorem write_cons {c : β} : write m a (c :: l) = write (Function.update m a c) (a + 1) l := by
  funext x
  obtain hlt | rfl | hgt := Nat.lt_trichotomy x a
  · rw [write, write, if_neg (by omega), if_neg (by omega),
      Function.update_of_ne (Nat.ne_of_lt hlt)]
  · rw [write, write, if_pos (Nat.le_refl x), if_neg (by omega), Nat.sub_self, Function.update_self]
    rfl
  · obtain ⟨j, rfl⟩ : ∃ j, x = a + 1 + j := ⟨x - (a + 1), by omega⟩
    rw [write, write, if_pos (by omega), if_pos (by omega), Function.update_of_ne (by omega),
      show a + 1 + j - a = j + 1 by omega, List.getElem?_cons_succ, Nat.add_sub_cancel_left]

theorem write_append {l' : List β} : write m a (l ++ l') = write (write m (a + l.length) l') a l := by
  have hlen : (l ++ l').length = l.length + l'.length := List.length_append
  funext x
  by_cases hlt : x < a
  · rw [write_outside (.inl hlt), write_outside (.inl hlt), write_outside (.inl (by omega))]
  · obtain ⟨i, rfl⟩ := Nat.exists_eq_add_of_le (Nat.le_of_not_lt hlt)
    rcases Nat.lt_or_ge i l.length with hi | hi
    · have hi' : i < (l ++ l').length := by omega
      rw [write_inside hi', write_inside hi, List.getElem_append_left hi]
    · obtain ⟨j, rfl⟩ := Nat.exists_eq_add_of_le hi
      have hout : a + l.length ≤ a + (l.length + j) := by omega
      rw [write_outside (m := write m (a + l.length) l') (.inr hout)]
      rcases Nat.lt_or_ge j l'.length with hj | hj
      · have hj' : l.length + j < (l ++ l').length := by omega
        rw [write_inside hj', ← Nat.add_assoc, write_inside hj, List.getElem_append_right hi]
        simp
      · rw [write_outside (.inr (by omega)), write_outside (.inr (by omega))]

theorem write_comm {l' : List β} (h : b + l'.length ≤ a ∨ a + l.length ≤ b) :
    write (write m a l) b l' = write (write m b l') a l := by
  funext x
  by_cases hx : b ≤ x ∧ x < b + l'.length
  · obtain ⟨i, rfl⟩ := Nat.exists_eq_add_of_le hx.1
    have hi : i < l'.length := by omega
    rw [write_inside hi, write_outside (by omega), write_inside hi]
  · rw [write_outside (by omega)]
    by_cases hx' : a ≤ x ∧ x < a + l.length
    · obtain ⟨i, rfl⟩ := Nat.exists_eq_add_of_le hx'.1
      have hi : i < l.length := by omega
      rw [write_inside hi, write_inside hi]
    · rw [write_outside (by omega), write_outside (by omega), write_outside (by omega)]

/-- The cells from `a` on have these contents. -/
def Holds (m : Nat → β) (a : Nat) (l : List β) : Prop := ∀ i (hi : i < l.length), m (a + i) = l[i]

theorem holds_write (m : Nat → β) (a : Nat) (l : List β) : Holds (write m a l) a l :=
  fun _ hi => write_inside hi

theorem holds_append {l' : List β} :
    Holds m a (l ++ l') ↔ Holds m a l ∧ Holds m (a + l.length) l' := by
  constructor
  · intro h
    refine ⟨fun i hi => ?_, fun i hi => ?_⟩
    · have hi' : i < (l ++ l').length := by
        rw [List.length_append]
        omega
      rw [h i hi', List.getElem_append_left hi]
    · have hi' : l.length + i < (l ++ l').length := by
        rw [List.length_append]
        omega
      rw [Nat.add_assoc, h _ hi', List.getElem_append_right (Nat.le_add_right ..)]
      simp
  · rintro ⟨hl, hl'⟩ i hi
    rw [List.length_append] at hi
    rcases Nat.lt_or_ge i l.length with hlt | hge
    · rw [hl i hlt, List.getElem_append_left hlt]
    · obtain ⟨j, rfl⟩ := Nat.exists_eq_add_of_le hge
      rw [← Nat.add_assoc, hl' j (by omega), List.getElem_append_right hge]
      simp

theorem holds_singleton {c : β} : Holds m a [c] ↔ m a = c := by
  constructor
  · exact fun h => h 0 Nat.one_pos
  · intro h i hi
    obtain rfl := Nat.lt_one_iff.mp hi
    exact h

theorem holds_ofFn {f : Fin n → β} : Holds m a (List.ofFn f) ↔ ∀ i : Fin n, m (a + i) = f i := by
  constructor
  · intro h i
    rw [h i (by rw [List.length_ofFn]; exact i.isLt), List.getElem_ofFn]
  · intro h i hi
    rw [List.length_ofFn] at hi
    rw [List.getElem_ofFn]
    exact h ⟨i, hi⟩

theorem read_congr {m' : Nat → β} (h : ∀ i < n, m' (a + i) = m (a + i)) :
    read m' a n = read m a n :=
  List.map_congr_left fun i hi => h i (List.mem_range.mp hi)

end ByteMemory
