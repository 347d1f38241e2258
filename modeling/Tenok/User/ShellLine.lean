import Mathlib.Data.List.Induction
import Tenok.User.Shell

/-!
What the handlers of the shell do to the array `buf` and to the strings in it.
-/
namespace Tenok
open Ring

namespace LineBuf
variable {a : LineBuf} {t w pre mid post rest : List Byte} {b c x y : Byte} {n fuel : Nat}

/-- The array holds the string, with its terminator. -/
def Holds (a : LineBuf) (t : List Byte) : Prop := 0#8 ∉ t ∧ ∃ rest, a.bytes = t ++ 0#8 :: rest

theorem Holds.noNul (h : a.Holds t) : 0#8 ∉ t := h.1

theorem Holds.length_lt (h : a.Holds t) : t.length < lineMax := by
  obtain ⟨-, rest, hbytes⟩ := h
  have hsize := a.size
  rw [hbytes, List.length_append, List.length_cons] at hsize
  omega

theorem Holds.strlen (h : a.Holds t) : a.strlen = some t.length := by
  obtain ⟨hnul, rest, hbytes⟩ := h
  rw [LineBuf.strlen, hbytes]
  exact strlen?_append hnul

theorem Holds.string (h : a.Holds t) : a.string = some t := by
  obtain ⟨hnul, rest, hbytes⟩ := h
  rw [LineBuf.string, hbytes, ← List.nil_append (t ++ 0#8 :: rest)]
  exact stringAt_append hnul rfl

theorem Holds.copy (h : a.Holds t) : a.copy.Holds t := by
  have hlt := h.length_lt
  obtain ⟨hnul, rest, hbytes⟩ := h
  have hstop : (t ++ 0#8 :: rest).takeWhile (fun b => decide (b ≠ 0#8)) = t := by
    have hall : ∀ b ∈ t, decide (b ≠ 0#8) = true := fun b hb =>
      decide_eq_true fun hz => hnul (hz ▸ hb)
    rw [List.takeWhile_append_of_pos hall]
    simp
  obtain ⟨k, hk⟩ := Nat.exists_eq_add_of_lt hlt
  refine ⟨hnul, List.replicate k 0#8, ?_⟩
  change strncpy a.bytes lineMax = _
  rw [hbytes, strncpy, hstop, List.take_of_length_le hlt.le,
    show lineMax - t.length = k + 1 by omega, List.replicate_succ]

theorem read_at (pre post : List Byte) {i : Int} (h : a.bytes = pre ++ x :: post) (hi : i = (pre.length : Nat)) :
    a.read i = some x := by
  subst hi
  change a.bytes[pre.length]? = some x
  rw [h, List.getElem?_append_right (Nat.le_refl _), Nat.sub_self]
  rfl

theorem write_at (pre post : List Byte) {i : Int} (h : a.bytes = pre ++ x :: post)
    (hi : i = (pre.length : Nat)) (b : Byte) : ∃ a', a.write i b = some a' ∧ a'.bytes = pre ++ b :: post := by
  subst hi
  have hsize := a.size
  rw [h, List.length_append, List.length_cons] at hsize
  refine ⟨_, if_pos (by omega), ?_⟩
  dsimp only
  rw [h, List.set_append_right _ _ (Nat.le_refl _), Nat.sub_self]
  rfl

theorem write_zero (a : LineBuf) : ∃ a', a.write 0 0#8 = some a' ∧ a'.Holds [] := by
  obtain ⟨x, rest, hbytes⟩ : ∃ x rest, a.bytes = x :: rest :=
    List.exists_cons_of_length_pos (by rw [a.size]; decide)
  obtain ⟨a', ha', hbytes'⟩ := write_at [] rest hbytes rfl 0#8
  exact ⟨a', ha', by simp, rest, hbytes'⟩

end LineBuf

namespace Shell
variable {s : Shell} {a buf : LineBuf} {t v p pre mid post rest : List Byte} {c x y : Byte}
  {n fuel : Nat} {outside : Bool}

/-! ### Characters -/

theorem removeLoop_next {charCnt i : Int} {a' : LineBuf} (hi : i < charCnt)
    (hread : a.read (i + 1) = some c) (hwrite : a.write i c = some a') :
    removeLoop charCnt (fuel + 1) i a = removeLoop charCnt fuel (i + 1) a' := by
  rw [removeLoop, if_pos hi, hread, Option.bind_eq_bind, Option.bind_some, hwrite]
  rfl

theorem removeLoop_end {charCnt i : Int} (hi : charCnt ≤ i) :
    removeLoop charCnt (fuel + 1) i a = some a := by
  rw [removeLoop, if_neg (not_lt.mpr hi)]

theorem removeLoop_spec {i : Int} (hbytes : a.bytes = pre ++ x :: (mid ++ 0#8 :: rest))
    (hi : i = (pre.length : Nat)) (hfuel : mid.length + 1 < fuel) : ∃ a',
      removeLoop (i + mid.length + 1) fuel i a = some a' ∧
        a'.bytes = pre ++ (mid ++ 0#8 :: 0#8 :: rest) := by
  induction mid generalizing a pre x i fuel with
  | nil =>
      obtain ⟨fuel, rfl⟩ := Nat.exists_eq_add_of_lt hfuel
      have hread : a.read (i + 1) = some 0#8 :=
        LineBuf.read_at (pre ++ [x]) rest (by simpa using hbytes) (by simp [hi])
      obtain ⟨a', ha', hbytes'⟩ := LineBuf.write_at pre _ hbytes hi 0#8
      refine ⟨a', ?_, hbytes'⟩
      rw [List.length_nil, Nat.zero_add, Nat.add_comm 1,
        removeLoop_next (by push_cast; omega) hread ha', removeLoop_end (by push_cast; omega)]
  | cons y mid ih =>
      obtain ⟨fuel, rfl⟩ := Nat.exists_eq_succ_of_ne_zero (Nat.ne_zero_of_lt hfuel)
      rw [List.length_cons] at hfuel ⊢
      have hread : a.read (i + 1) = some y :=
        LineBuf.read_at (pre ++ [x]) (mid ++ 0#8 :: rest) (by simpa using hbytes) (by simp [hi])
      obtain ⟨a', ha', hbytes'⟩ := LineBuf.write_at pre _ hbytes hi y
      have hmoved : a'.bytes = (pre ++ [y]) ++ y :: (mid ++ 0#8 :: rest) := by
        simpa using hbytes'
      obtain ⟨a'', ha'', hbytes''⟩ :=
        ih hmoved (i := i + 1) (by simp [hi]) (Nat.lt_of_succ_lt_succ hfuel)
      refine ⟨a'', ?_, by simpa using hbytes''⟩
      rw [removeLoop_next (by omega) hread ha', ← ha'']
      congr 1
      push_cast
      omega

theorem insertLoop_next {cursorPos i : Int} {a' : LineBuf} (hi : cursorPos - 1 < i) (hne : i ≠ 0)
    (hread : a.read (i - 1) = some c) (hwrite : a.write i c = some a') :
    insertLoop cursorPos (fuel + 1) i a outside = insertLoop cursorPos fuel (i - 1) a' outside := by
  rw [insertLoop, if_pos hi, if_neg hne, hread, Option.bind_eq_bind, Option.bind_some]
  dsimp only
  rw [hwrite, decide_eq_false hne, Bool.or_false]
  rfl

theorem insertLoop_zero {cursorPos : Int} {a' : LineBuf} (hi : cursorPos ≤ 0)
    (hwrite : a.write 0 0#8 = some a') :
    insertLoop cursorPos (fuel + 1) 0 a outside = insertLoop cursorPos fuel (-1) a' true := by
  rw [insertLoop, if_pos (by omega), if_pos rfl, Option.bind_eq_bind, Option.bind_some]
  dsimp only
  rw [hwrite, decide_eq_true rfl, Bool.or_true]
  rfl

theorem insertLoop_end {cursorPos i : Int} (hi : i ≤ cursorPos - 1) :
    insertLoop cursorPos (fuel + 1) i a outside = some (a, outside) := by
  rw [insertLoop, if_neg (not_lt.mpr hi)]

theorem insertLoop_spec {cursorPos i : Int} (hbytes : a.bytes = pre ++ (mid ++ y :: post))
    (hcursor : cursorPos = (pre.length : Nat)) (hi : i = (pre.length + mid.length : Nat))
    (hfuel : mid.length + 1 < fuel) : ∃ a' w,
      insertLoop cursorPos fuel i a outside = some (a', outside || decide (pre = [])) ∧
        a'.bytes = pre ++ w :: (mid ++ post) := by
  induction mid using List.reverseRecOn generalizing a y post i fuel with
  | nil =>
      obtain ⟨fuel, rfl⟩ := Nat.exists_eq_add_of_lt hfuel
      rw [List.length_nil, Nat.add_zero] at hi
      rw [List.length_nil, Nat.zero_add, Nat.add_comm 1]
      rcases List.eq_nil_or_concat pre with rfl | ⟨pre', z, rfl⟩
      · obtain ⟨a', ha', hbytes'⟩ := LineBuf.write_at [] _ hbytes hi 0#8
        refine ⟨a', 0#8, ?_, hbytes'⟩
        obtain rfl : i = 0 := hi
        rw [insertLoop_zero (by simp [hcursor]) ha', insertLoop_end (by simp [hcursor])]
        simp
      · rw [List.concat_eq_append] at *
        have hread : a.read (i - 1) = some z :=
          LineBuf.read_at pre' (y :: post) (by simpa using hbytes) (by simp [hi])
        obtain ⟨a', ha', hbytes'⟩ := LineBuf.write_at _ _ hbytes hi z
        refine ⟨a', z, ?_, hbytes'⟩
        rw [List.length_append, List.length_singleton] at hi hcursor
        rw [insertLoop_next (by omega) (by omega) hread ha', insertLoop_end (by omega)]
        simp
  | append_singleton mid z ih =>
      obtain ⟨fuel, rfl⟩ := Nat.exists_eq_succ_of_ne_zero (Nat.ne_zero_of_lt hfuel)
      rw [List.length_append, List.length_singleton] at hfuel hi
      have hread : a.read (i - 1) = some z :=
        LineBuf.read_at (pre ++ mid) (y :: post) (by simpa using hbytes)
          (by rw [List.length_append]; omega)
      have hlast : a.bytes = (pre ++ (mid ++ [z])) ++ y :: post := by simpa using hbytes
      obtain ⟨a', ha', hbytes'⟩ := LineBuf.write_at _ _ hlast
        (by simp only [List.length_append, List.length_singleton]; omega) z
      have hmoved : a'.bytes = pre ++ (mid ++ z :: z :: post) := by simpa using hbytes'
      obtain ⟨a'', w, ha'', hbytes''⟩ :=
        ih hmoved (i := i - 1) (by omega) (Nat.lt_of_succ_lt_succ hfuel)
      refine ⟨a'', w, ?_, by simpa using hbytes''⟩
      rw [insertLoop_next (by omega) (by omega) hread ha', ha'']

theorem shellInsertChar_spec (hbytes : s.buf.bytes = pre ++ (mid ++ y :: post))
    (hnul : 0#8 ∉ pre ++ mid) (hcursor : s.cursorPos = (pre.length : Nat))
    (hcount : s.charCnt = ((pre ++ mid).length : Nat)) (hlt : (pre ++ mid).length < lineMax - 1)
    (hc : c ≠ 0#8) : ∃ buf, s.shellInsertChar c = some { s with
        buf, charCnt := s.charCnt + 1, cursorPos := s.cursorPos + 1,
        outside := s.outside || decide (pre = []) } ∧ buf.Holds (pre ++ c :: mid) := by
  have hsize := s.buf.size
  rw [hbytes] at hsize
  simp only [List.length_append, List.length_cons] at hsize hcount hlt
  obtain ⟨z, post, rfl⟩ := List.exists_cons_of_length_pos (l := post) (by omega)
  obtain ⟨a, w, hloop, ha⟩ : ∃ a w, insertLoop s.cursorPos (lineMax + 1) s.charCnt s.buf s.outside =
      some (a, s.outside || decide (pre = [])) ∧ a.bytes = pre ++ w :: (mid ++ z :: post) :=
    insertLoop_spec hbytes hcursor hcount (by omega)
  have hroom : a.bytes = (pre ++ w :: mid) ++ z :: post := by simpa using ha
  obtain ⟨a', hend, ha'⟩ := LineBuf.write_at _ _ hroom (i := s.charCnt + 1)
    (by simp only [List.length_append, List.length_cons]; omega) 0#8
  have hterm : a'.bytes = pre ++ w :: (mid ++ 0#8 :: post) := by simpa using ha'
  obtain ⟨a'', hchar, ha''⟩ := LineBuf.write_at _ _ hterm hcursor c
  refine ⟨a'', ?_, ?_, post, ?_⟩
  · simp only [shellInsertChar, hloop, hend, hchar, Option.bind_eq_bind, Option.bind_some]
  · simp only [List.mem_append, List.mem_cons, not_or] at hnul ⊢
    exact ⟨hnul.1, Ne.symm hc, hnul.2⟩
  · simpa using ha''

theorem shellRemoveChar_spec {removePos : Int} (hbuf : s.buf.Holds (pre ++ x :: mid))
    (hpos : removePos - 1 = (pre.length : Nat))
    (hcount : s.charCnt = ((pre ++ x :: mid).length : Nat)) (hcursor : s.cursorPos ≤ s.charCnt) :
    ∃ buf, s.shellRemoveChar removePos = some { s with
        buf, charCnt := s.charCnt - 1, cursorPos := s.cursorPos - 1 } ∧
      buf.Holds (pre ++ mid) := by
  have hlt := hbuf.length_lt
  obtain ⟨hnul, rest, hbytes⟩ := hbuf
  simp only [List.length_append, List.length_cons] at hlt hcount
  have hgap : s.buf.bytes = pre ++ x :: (mid ++ 0#8 :: rest) := by simpa using hbytes
  obtain ⟨a, hloop, ha⟩ : ∃ a, removeLoop (removePos - 1 + mid.length + 1) (lineMax + 1)
      (removePos - 1) s.buf = some a ∧ a.bytes = pre ++ (mid ++ 0#8 :: 0#8 :: rest) :=
    removeLoop_spec hgap hpos (by omega)
  rw [show removePos - 1 + mid.length + 1 = s.charCnt by omega] at hloop
  have hclosed : a.bytes = (pre ++ (mid ++ [0#8])) ++ 0#8 :: rest := by simpa using ha
  obtain ⟨a', hend, ha'⟩ := LineBuf.write_at _ _ hclosed (i := s.charCnt)
    (by simp only [List.length_append, List.length_singleton]; omega) 0#8
  refine ⟨a', ?_, ?_, 0#8 :: rest, ?_⟩
  · simp only [shellRemoveChar, hloop, hend, Option.bind_eq_bind, Option.bind_some]
    rw [if_neg (by omega)]
  · simp only [List.mem_append, List.mem_cons, not_or] at hnul ⊢
    exact ⟨hnul.1, hnul.2.2⟩
  · simpa using ha'

theorem shellRefreshLine_eq (hprompt : s.prompt.Holds p) (hbuf : s.buf.Holds t) :
    s.shellRefreshLine = some { s with terminal := ⟨p ++ t, s.promptLen + s.cursorPos⟩ } := by
  simp only [shellRefreshLine, hprompt.string, hbuf.string, Option.bind_eq_bind, Option.bind_some]

theorem putPrompt_eq (hprompt : s.prompt.Holds p) :
    s.putPrompt = some { s with terminal := ⟨p, p.length⟩ } := by
  simp only [putPrompt, hprompt.string, Option.bind_eq_bind, Option.bind_some]

/-! ### The first argument -/

theorem scan_spec {q : Byte → Bool} {i : Nat} (hbuf : a.Holds t) (hn : n ≤ t.length) (hi : i ≤ n)
    (hfuel : n - i < fuel) :
    scan q a n fuel i = some (i + (((t.take n).drop i).takeWhile q).length) := by
  have hlt := hbuf.length_lt
  obtain ⟨hnul, rest, hbytes⟩ := hbuf
  obtain ⟨fuel, rfl⟩ := Nat.exists_eq_succ_of_ne_zero (Nat.ne_zero_of_lt hfuel)
  induction fuel generalizing i with
  | zero =>
      obtain rfl : i = n := by omega
      obtain ⟨b, hb⟩ : ∃ b, a.bytes[i]? = some b :=
        ⟨_, List.getElem?_eq_getElem (by rw [a.size]; omega)⟩
      rw [scan, hb, Option.bind_eq_bind, Option.bind_some, if_neg (by simp)]
      simp
  | succ fuel ih =>
      obtain ⟨b, hb⟩ : ∃ b, a.bytes[i]? = some b :=
        ⟨_, List.getElem?_eq_getElem (by rw [a.size]; omega)⟩
      rw [scan, hb, Option.bind_eq_bind, Option.bind_some]
      by_cases hin : i < n
      · have hdrop : (t.take n).drop i = b :: (t.take n).drop (i + 1) := by
          rw [hbytes, List.getElem?_append_left (by omega)] at hb
          rw [List.drop_eq_getElem_cons (by rw [List.length_take]; omega), List.getElem_take]
          rw [(List.getElem?_eq_some_iff.mp hb).2]
        rw [hdrop]
        by_cases hq : q b = true
        · rw [if_pos ⟨hq, by exact_mod_cast hin⟩, ih (by omega) (by omega),
            List.takeWhile_cons_of_pos hq, List.length_cons]
          congr 1
          omega
        · rw [if_neg fun h => hq h.1, List.takeWhile_cons_of_neg hq]
          rfl
      · obtain rfl : i = n := by omega
        rw [if_neg (by simp)]
        simp

theorem argv0_spec {k : Nat} (hbuf : s.buf.Holds t) (hcount : s.charCnt = (n : Nat))
    (hn : n ≤ t.length) (hcursor : s.cursorPos = (k : Nat)) :
    ∃ o, s.argv0 = some o ∧ ∀ i j, o = some (i, j) → i ≤ k ∧ k ≤ j ∧ j ≤ max n k := by
  have hlt := hbuf.length_lt
  have hstart : scan (fun c => decide (c = space)) s.buf n (lineMax + 1) 0 =
      some (0 + (((t.take n).drop 0).takeWhile fun c => decide (c = space)).length) :=
    scan_spec hbuf hn (Nat.zero_le n) (by omega)
  have hlen : 0 + (((t.take n).drop 0).takeWhile fun c => decide (c = space)).length ≤ n := by
    have h := (List.takeWhile_sublist (fun c => decide (c = space)) (l := t.take n)).length_le
    rw [List.drop_zero, Nat.zero_add]
    exact h.trans (by rw [List.length_take]; exact Nat.min_le_left ..)
  generalize 0 + (((t.take n).drop 0).takeWhile fun c => decide (c = space)).length = i at *
  have hend : scan (fun c => decide (c ≠ space)) s.buf n (lineMax + 1) i =
      some (i + (((t.take n).drop i).takeWhile fun c => decide (c ≠ space)).length) :=
    scan_spec hbuf hn hlen (by omega)
  have hlen' : (((t.take n).drop i).takeWhile fun c => decide (c ≠ space)).length ≤ n - i := by
    have h := (List.takeWhile_sublist (fun c => decide (c ≠ space))
      (l := (t.take n).drop i)).length_le
    refine h.trans ?_
    rw [List.length_drop, List.length_take]
    omega
  generalize (((t.take n).drop i).takeWhile fun c => decide (c ≠ space)).length = m at *
  rw [argv0, hcount, hstart, Option.bind_eq_bind, Option.bind_some, hend, Option.bind_some, hcursor]
  split
  · exact ⟨none, rfl, by simp⟩
  · split
    · refine ⟨_, rfl, fun i' j' h => ?_⟩
      obtain ⟨rfl, rfl⟩ := Prod.mk.inj (Option.some.inj h)
      rw [Int.toNat_natCast]
      exact ⟨Nat.le_refl _, Nat.le_refl _, Nat.le_max_right ..⟩
    · refine ⟨_, rfl, fun i' j' h => ?_⟩
      obtain ⟨rfl, rfl⟩ := Prod.mk.inj (Option.some.inj h)
      omega

end Shell

end Tenok
