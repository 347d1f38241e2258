import Tenok.Lib.ByteMemory

/-!
A sequence that is kept in chunks of one length, which are read and written one piece at a time.
-/
namespace Chunks
universe u
variable {α : Type u} {P pos n : Nat} {c l new new' : List α} {cs : List (List α)}

/-- The elements from a position on are replaced. -/
def overwrite (l : List α) (pos : Nat) (new : List α) : List α :=
  l.take pos ++ (new ++ l.drop (pos + new.length))

theorem take_overwrite (h : pos ≤ l.length) :
    (overwrite l pos new).take (pos + new.length) = l.take pos ++ new := by
  rw [overwrite, ← List.append_assoc,
    List.take_left' (by rw [List.length_append, List.length_take_of_le h])]

theorem overwrite_read {m : Nat → α} {a : Nat} (h : pos + new.length ≤ n) :
    overwrite (ByteMemory.read m a n) pos new =
      ByteMemory.read (ByteMemory.write m (a + pos) new) a n := by
  obtain ⟨k, rfl⟩ := Nat.exists_eq_add_of_le h
  have hbefore : ByteMemory.read (ByteMemory.write m (a + pos) new) a pos = ByteMemory.read m a pos :=
    ByteMemory.read_write_outside (Or.inl (Nat.le_refl _))
  have hbehind : ByteMemory.read (ByteMemory.write m (a + pos) new) (a + (pos + new.length)) k =
      ByteMemory.read m (a + (pos + new.length)) k :=
    ByteMemory.read_write_outside (Or.inr (by omega))
  have hold : ByteMemory.read m a (pos + new.length + k) =
      (ByteMemory.read m a pos ++ ByteMemory.read m (a + pos) new.length) ++
        ByteMemory.read m (a + (pos + new.length)) k := by
    rw [ByteMemory.read_add, ByteMemory.read_add]
  have hnew : ByteMemory.read (ByteMemory.write m (a + pos) new) a (pos + new.length + k) =
      (ByteMemory.read m a pos ++ new) ++ ByteMemory.read m (a + (pos + new.length)) k := by
    rw [ByteMemory.read_add, ByteMemory.read_add, hbefore, ByteMemory.read_write, hbehind]
  rw [hold, hnew, overwrite, List.drop_left' (by simp), List.append_assoc,
    List.take_left' (ByteMemory.length_read ..), List.append_assoc]

theorem length_flatten (h : ∀ c ∈ cs, c.length = P) : cs.flatten.length = P * cs.length := by
  induction cs with
  | nil => rfl
  | cons c cs ih =>
      rw [List.flatten_cons, List.length_append, h c List.mem_cons_self,
        ih fun d hd => h d (List.mem_cons_of_mem c hd), List.length_cons, Nat.mul_succ, Nat.add_comm]

/-- A position is before the second chunk or as far behind its start as in the rest. -/
theorem chunk_cases (hP : 0 < P) (pos : Nat) :
    (pos / P = 0 ∧ pos % P = pos ∧ pos < P) ∨
      (pos / P = (pos - P) / P + 1 ∧ pos % P = (pos - P) % P ∧ P ≤ pos) := by
  obtain hlt | hle := Nat.lt_or_ge pos P
  · exact Or.inl ⟨Nat.div_eq_of_lt hlt, Nat.mod_eq_of_lt hlt, hlt⟩
  · exact Or.inr ⟨Nat.div_eq_sub_div hP hle, Nat.mod_eq_sub_mod hle, hle⟩

theorem take_drop_flatten (hP : 0 < P) (h : ∀ c ∈ cs, c.length = P) (hc : cs[pos / P]? = some c)
    (hn : pos % P + n ≤ P) : (cs.flatten.drop pos).take n = (c.drop (pos % P)).take n := by
  induction cs generalizing pos with
  | nil => cases hc
  | cons d cs ih =>
      have hd := h d List.mem_cons_self
      rw [List.flatten_cons]
      obtain ⟨hdiv, hmod, hlt⟩ | ⟨hdiv, hmod, hle⟩ := chunk_cases hP pos
      · rw [hdiv] at hc
        obtain rfl : d = c := by simpa using hc
        rw [hmod] at hn ⊢
        rw [List.drop_append_of_le_length (by omega),
          List.take_append_of_le_length (by rw [List.length_drop]; omega)]
      · rw [hdiv, List.getElem?_cons_succ] at hc
        have hdrop : (d ++ cs.flatten).drop pos = cs.flatten.drop (pos - P) := by
          rw [List.drop_append, List.drop_eq_nil_of_le (by omega), List.nil_append, hd]
        rw [hdrop, hmod, ih (fun e he => h e (List.mem_cons_of_mem d he)) hc (hmod ▸ hn)]

theorem flatten_set_overwrite (hP : 0 < P) (h : ∀ c ∈ cs, c.length = P) (hc : cs[pos / P]? = some c)
    (hn : pos % P + new.length ≤ P) :
    (cs.set (pos / P) (overwrite c (pos % P) new)).flatten = overwrite cs.flatten pos new := by
  induction cs generalizing pos with
  | nil => cases hc
  | cons d cs ih =>
      have hd := h d List.mem_cons_self
      obtain ⟨hdiv, hmod, hlt⟩ | ⟨hdiv, hmod, hle⟩ := chunk_cases hP pos
      · rw [hdiv] at hc ⊢
        obtain rfl : d = c := by simpa using hc
        rw [hmod] at hn ⊢
        rw [List.set_cons_zero, List.flatten_cons, List.flatten_cons, overwrite, overwrite,
          List.take_append_of_le_length (by omega), List.drop_append_of_le_length (by omega)]
        simp only [List.append_assoc]
      · rw [hdiv, List.getElem?_cons_succ] at hc
        rw [hdiv, List.set_cons_succ, List.flatten_cons, List.flatten_cons, hmod,
          ih (fun e he => h e (List.mem_cons_of_mem d he)) hc (hmod ▸ hn)]
        have hdrop : (d ++ cs.flatten).drop (pos + new.length) =
            cs.flatten.drop (pos - P + new.length) := by
          rw [List.drop_append, List.drop_eq_nil_of_le (by omega), List.nil_append, hd]
          congr 1
          omega
        have htake : (d ++ cs.flatten).take pos = d ++ cs.flatten.take (pos - P) := by
          rw [List.take_append, List.take_of_length_le (by omega), hd]
        rw [overwrite, overwrite, hdrop, htake, List.append_assoc]

end Chunks
