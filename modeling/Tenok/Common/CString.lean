import Tenok.Common.Util

/-!
Strings of C in an array of bytes. What would read behind the array is `none`.
-/
namespace Tenok

def space : Byte := 32#8

def strlen? (s : List Byte) : Option Nat := s.findIdx? (· = 0#8)

/-- The string that `&mem[p]` points to. -/
def stringAt (mem : List Byte) (p : Nat) : Option (List Byte) :=
  (strlen? (mem.drop p)).map fun n => (mem.drop p).take n

/-- What `strncpy` writes to the first `n` bytes at its destination. -/
def strncpy (src : List Byte) (n : Nat) : List Byte :=
  let w := (src.takeWhile (· ≠ 0#8)).take n
  w ++ List.replicate (n - w.length) 0#8

def strncmpEq : List Byte → List Byte → Nat → Bool
  | _, _, 0 => true
  | a :: as, b :: bs, n + 1 => decide (a = b) && (decide (a = 0#8) || strncmpEq as bs n)
  | _, _, _ + 1 => false

section Strings
variable {w rest pre : List Byte} {p n : Nat}

theorem strlen?_append (hw : 0#8 ∉ w) : strlen? (w ++ 0#8 :: rest) = some w.length := by
  have hnone : w.findIdx? (fun b => decide (b = 0#8)) = none := by
    rw [List.findIdx?_eq_none_iff]
    intro b hb
    exact decide_eq_false fun h => hw (h ▸ hb)
  rw [strlen?, List.findIdx?_append, hnone, Option.none_or, List.findIdx?_cons,
    if_pos (decide_eq_true rfl), Option.map_some, Nat.zero_add]

theorem stringAt_append (hw : 0#8 ∉ w) (hp : p = pre.length) :
    stringAt (pre ++ (w ++ 0#8 :: rest)) p = some w := by
  rw [stringAt, hp, List.drop_left, strlen?_append hw, Option.map_some, List.take_left]

theorem strncmpEq_take {as bs : List Byte} (h : strncmpEq as bs n = true) (hnul : 0#8 ∉ as.take n)
    (hn : n ≤ as.length) : bs.take n = as.take n ∧ n ≤ bs.length := by
  induction n generalizing as bs with
  | zero => exact ⟨by simp, Nat.zero_le _⟩
  | succ n ih =>
      cases as with
      | nil => cases hn
      | cons x as =>
          cases bs with
          | nil => cases h
          | cons y bs =>
              rw [List.take_succ_cons, List.mem_cons, not_or] at hnul
              rw [strncmpEq, Bool.and_eq_true, Bool.or_eq_true, decide_eq_true_eq,
                decide_eq_true_eq] at h
              obtain ⟨rfl, hrest⟩ := h
              have hrest := hrest.resolve_left fun hx => hnul.1 hx.symm
              obtain ⟨htake, hle⟩ := ih hrest hnul.2 (Nat.le_of_succ_le_succ hn)
              rw [List.take_succ_cons, List.take_succ_cons, htake, List.length_cons]
              exact ⟨rfl, Nat.succ_le_succ hle⟩

end Strings

end Tenok
