import Mathlib.Data.List.InsertIdx

/-!
A line of text that is edited at a cursor. The text has a bounded length and the cursor is never
behind its end.
-/

/-- A line of at most `cap` characters. -/
@[ext] structure LineEditor (α : Type*) (cap : Nat) where
  text : List α
  cursor : Nat
  cursor_le : cursor ≤ text.length
  length_le : text.length ≤ cap

inductive LineEdit (α : Type*)
  | keep
  | insert (c : α)
  | deleteBefore
  | deleteAt
  | left
  | right
  | home
  | toEnd
  | clear
  /-- Another line, with the cursor at its end. -/
  | replace (text : List α)
  /-- Another line, with the cursor where it was. -/
  | substitute (text : List α)

namespace LineEditor
variable {α : Type*} {cap : Nat}

def empty : LineEditor α cap := ⟨[], 0, Nat.le_refl 0, Nat.zero_le cap⟩

def insert (e : LineEditor α cap) (c : α) : LineEditor α cap :=
  if h : e.text.length < cap then
    { text := e.text.insertIdx e.cursor c
      cursor := e.cursor + 1
      cursor_le := by
        rw [List.length_insertIdx_of_le_length e.cursor_le]
        exact Nat.succ_le_succ e.cursor_le
      length_le := by
        rw [List.length_insertIdx_of_le_length e.cursor_le]
        exact h }
  else e

def deleteBefore (e : LineEditor α cap) : LineEditor α cap :=
  if h : 0 < e.cursor then
    { text := e.text.eraseIdx (e.cursor - 1)
      cursor := e.cursor - 1
      cursor_le := by
        have hle := e.cursor_le
        rw [List.length_eraseIdx_of_lt (by omega)]
        omega
      length_le := Nat.le_trans (List.length_eraseIdx_le ..) e.length_le }
  else e

def deleteAt (e : LineEditor α cap) : LineEditor α cap :=
  if h : e.cursor < e.text.length then
    { text := e.text.eraseIdx e.cursor
      cursor := e.cursor
      cursor_le := by
        rw [List.length_eraseIdx_of_lt h]
        omega
      length_le := Nat.le_trans (List.length_eraseIdx_le ..) e.length_le }
  else e

def left (e : LineEditor α cap) : LineEditor α cap :=
  { e with cursor := e.cursor - 1, cursor_le := Nat.le_trans (Nat.sub_le ..) e.cursor_le }

def right (e : LineEditor α cap) : LineEditor α cap :=
  if h : e.cursor < e.text.length then { e with cursor := e.cursor + 1, cursor_le := h } else e

def home (e : LineEditor α cap) : LineEditor α cap :=
  { e with cursor := 0, cursor_le := Nat.zero_le _ }

def toEnd (e : LineEditor α cap) : LineEditor α cap :=
  { e with cursor := e.text.length, cursor_le := Nat.le_refl _ }

def replace (text : List α) : LineEditor α cap where
  text := text.take cap
  cursor := (text.take cap).length
  cursor_le := Nat.le_refl _
  length_le := List.length_take_le ..

def substitute (e : LineEditor α cap) (text : List α) : LineEditor α cap where
  text := text.take cap
  cursor := min e.cursor (text.take cap).length
  cursor_le := Nat.min_le_right ..
  length_le := List.length_take_le ..

def apply (e : LineEditor α cap) : LineEdit α → LineEditor α cap
  | .keep => e
  | .insert c => e.insert c
  | .deleteBefore => e.deleteBefore
  | .deleteAt => e.deleteAt
  | .left => e.left
  | .right => e.right
  | .home => e.home
  | .toEnd => e.toEnd
  | .clear => empty
  | .replace text => replace text
  | .substitute text => e.substitute text

/-! ### The text around the cursor -/

variable {e : LineEditor α cap} {pre post text : List α} {c x : α}

theorem exists_split (e : LineEditor α cap) :
    ∃ pre post, e.text = pre ++ post ∧ e.cursor = pre.length :=
  ⟨e.text.take e.cursor, e.text.drop e.cursor, (List.take_append_drop ..).symm, by
    rw [List.length_take, Nat.min_eq_left e.cursor_le]⟩

theorem insertIdx_length_append (pre post : List α) (c : α) :
    (pre ++ post).insertIdx pre.length c = pre ++ c :: post := by
  induction pre with
  | nil => simp
  | cons x pre ih => rw [List.cons_append, List.length_cons, List.insertIdx_succ_cons, ih]; rfl

theorem eraseIdx_length_append (pre post : List α) (x : α) :
    (pre ++ x :: post).eraseIdx pre.length = pre ++ post := by
  rw [List.eraseIdx_append_of_length_le (Nat.le_refl _), Nat.sub_self, List.eraseIdx_cons_zero]

theorem insert_eq (htext : e.text = pre ++ post) (hcursor : e.cursor = pre.length)
    (hlt : e.text.length < cap) :
    (e.insert c).text = pre ++ c :: post ∧ (e.insert c).cursor = e.cursor + 1 := by
  rw [insert, dif_pos hlt]
  dsimp only
  rw [htext, hcursor, insertIdx_length_append]
  exact ⟨rfl, rfl⟩

theorem insert_full (h : cap ≤ e.text.length) : e.insert c = e :=
  dif_neg (Nat.not_lt.mpr h)

theorem deleteBefore_eq (htext : e.text = pre ++ x :: post) (hcursor : e.cursor = pre.length + 1) :
    e.deleteBefore.text = pre ++ post ∧ e.deleteBefore.cursor = pre.length := by
  rw [deleteBefore, dif_pos (hcursor ▸ Nat.succ_pos _)]
  dsimp only
  rw [hcursor, Nat.add_sub_cancel, htext, eraseIdx_length_append]
  exact ⟨rfl, rfl⟩

theorem deleteBefore_start (h : e.cursor = 0) : e.deleteBefore = e :=
  dif_neg (Nat.not_lt.mpr (Nat.le_of_eq h))

theorem deleteAt_eq (htext : e.text = pre ++ x :: post) (hcursor : e.cursor = pre.length) :
    e.deleteAt.text = pre ++ post ∧ e.deleteAt.cursor = pre.length := by
  rw [deleteAt, dif_pos (by rw [hcursor, htext, List.length_append, List.length_cons]; omega)]
  dsimp only
  rw [hcursor, htext, eraseIdx_length_append]
  exact ⟨rfl, rfl⟩

theorem deleteAt_end (h : e.cursor = e.text.length) : e.deleteAt = e :=
  dif_neg (Nat.not_lt.mpr (Nat.le_of_eq h.symm))

theorem left_start (h : e.cursor = 0) : e.left = e :=
  LineEditor.ext rfl (show e.cursor - 1 = e.cursor by rw [h])

theorem right_eq (h : e.cursor < e.text.length) :
    e.right.text = e.text ∧ e.right.cursor = e.cursor + 1 := by
  rw [right, dif_pos h]
  exact ⟨rfl, rfl⟩

theorem right_end (h : e.cursor = e.text.length) : e.right = e :=
  dif_neg (Nat.not_lt.mpr (Nat.le_of_eq h.symm))

theorem toEnd_end (h : e.cursor = e.text.length) : e.toEnd = e := LineEditor.ext rfl h.symm

theorem replace_eq (h : text.length ≤ cap) :
    (replace text : LineEditor α cap).text = text ∧
      (replace text : LineEditor α cap).cursor = text.length := by
  simp only [replace, List.take_of_length_le h, and_self]

theorem substitute_eq (h : text.length ≤ cap) (hcursor : e.cursor ≤ text.length) :
    (e.substitute text).text = text ∧ (e.substitute text).cursor = e.cursor := by
  simp only [substitute, List.take_of_length_le h, Nat.min_eq_left hcursor, and_self]

end LineEditor
