import Mathlib.Data.List.DropRight
import Mathlib.Data.List.Forall2
import Tenok.User.ShellLine

/-!
The history of the shell: the recycled list of `shell_push_new_history`, and the pointer into it that
the arrow keys move.
-/
namespace Tenok
open Ring

namespace Shell

/-- The slots `l` of the list, oldest first, hold the lines. -/
structure HistoryList (links : Cells HistoryNode) (historyCnt historyMaxCnt : Nat)
    (history : List LineBuf) (l : List Nat) (lines : List (List Byte)) : Prop where
  ring : IsRing links HistoryNode.head (l.map HistoryNode.slot)
  count : historyCnt = l.length
  size : history.length = historyMaxCnt
  used : ∀ i ∈ l, historyMaxCnt - l.length ≤ i ∧ i < historyMaxCnt
  le : l.length ≤ historyMaxCnt
  holds : List.Forall₂ (fun i w => ∃ a : LineBuf, history[i]? = some a ∧ a.Holds w) l lines

section List
variable {links : Cells HistoryNode} {cnt size i j n p : Nat} {hs : List LineBuf} {a : LineBuf}
  {l l₁ l₂ : List Nat} {lines : List (List Byte)} {node : HistoryNode} {t w b prompt : List Byte}
  {s : Shell}

theorem HistoryList.init (links : Cells HistoryNode) (hs : List LineBuf) (hsize : hs.length = size) :
    HistoryList (initListHead links HistoryNode.head) 0 size hs [] [] where
  ring := initListHead_isRing links HistoryNode.head
  count := rfl
  size := hsize
  used _ h := by cases h
  le := Nat.zero_le _
  holds := .nil

theorem HistoryList.length_eq (h : HistoryList links cnt size hs l lines) :
    l.length = lines.length := h.holds.length_eq

theorem HistoryList.nodup (h : HistoryList links cnt size hs l lines) : l.Nodup :=
  List.Nodup.of_map _ (List.nodup_cons.mp h.ring.nodup).2

theorem holds_set (hholds : List.Forall₂ (fun i w => ∃ a : LineBuf, hs[i]? = some a ∧ a.Holds w)
    l lines) (hj : j ∉ l) (hlt : j < hs.length) (ha : a.Holds t) :
    List.Forall₂ (fun i w => ∃ a' : LineBuf, (hs.set j a)[i]? = some a' ∧ a'.Holds w) (l ++ [j])
      (lines ++ [t]) := by
  induction hholds with
  | nil => exact .cons ⟨a, List.getElem?_set_self hlt, ha⟩ .nil
  | cons hw _ ih =>
      rw [List.mem_cons, not_or] at hj
      refine .cons ?_ (ih hj.2)
      rwa [List.getElem?_set_ne hj.1]

theorem listAdd_slot (h : IsRing links HistoryNode.head (l.map HistoryNode.slot)) (hj : j ∉ l) :
    IsRing (listAdd links (HistoryNode.slot j) HistoryNode.head) HistoryNode.head
      ((l ++ [j]).map HistoryNode.slot) := by
  rw [List.map_append, List.map_singleton]
  refine listAdd_isRing h fun x hx => ?_
  rintro rfl
  rcases List.mem_cons.mp hx with hx | hx
  · cases hx
  · obtain ⟨i, hi, heq⟩ := List.mem_map.mp hx
    cases heq
    exact hj hi

theorem rtake_rtake_append (lines : List (List Byte)) (t : List Byte) (n : Nat) :
    (lines.rtake n ++ [t]).rtake n = (lines ++ [t]).rtake n := by
  by_cases hle : lines.length ≤ n
  · have hall : lines.rtake n = lines := by
      rw [List.rtake, Nat.sub_eq_zero_of_le hle, List.drop_zero]
    rw [hall]
  · obtain ⟨k, hk⟩ := Nat.exists_eq_add_of_lt (not_le.mp hle)
    have hlen : (lines.drop (lines.length - n)).length = n := by
      rw [List.length_drop]
      omega
    rw [List.rtake, List.rtake, List.rtake, List.length_append, List.length_append, hlen,
      List.length_singleton, ← List.drop_append_of_le_length (Nat.sub_le ..), List.drop_drop]
    congr 1
    omega

theorem shellPushNewHistory_room (hhistory : s.history = some hs)
    (h : HistoryList s.historyLinks s.historyCnt s.historyMaxCnt hs l lines)
    (hbuf : s.buf.Holds t) (hroom : s.historyCnt < s.historyMaxCnt) : ∃ hs' links cnt l',
    s.shellPushNewHistory = some { s with
      history := some hs', historyLinks := links, historyCnt := cnt, historyCurr := .head,
      showHistory := false } ∧
    HistoryList links cnt s.historyMaxCnt hs' l' ((lines ++ [t]).rtake s.historyMaxCnt) := by
  have hcount := h.count
  have hlines := h.length_eq
  have hj : s.historyMaxCnt - s.historyCnt - 1 ∉ l := fun hmem => by
    have hused := (h.used _ hmem).1
    omega
  have hlt : s.historyMaxCnt - s.historyCnt - 1 < hs.length := by
    rw [h.size]
    omega
  have hall : (lines ++ [t]).rtake s.historyMaxCnt = lines ++ [t] := by
    rw [List.rtake, List.length_append, List.length_singleton, Nat.sub_eq_zero_of_le (by omega),
      List.drop_zero]
  refine ⟨hs.set (s.historyMaxCnt - s.historyCnt - 1) s.buf.copy,
    listAdd s.historyLinks (HistoryNode.slot (s.historyMaxCnt - s.historyCnt - 1)) HistoryNode.head,
    s.historyCnt + 1, l ++ [s.historyMaxCnt - s.historyCnt - 1], ?_, ?_⟩
  · rw [shellPushNewHistory, hhistory]
    dsimp only
    rw [if_pos hroom, Option.bind_eq_bind, Option.bind_some]
    exact if_pos hlt
  · rw [hall]
    exact
      { ring := listAdd_slot h.ring hj
        count := by rw [List.length_append, List.length_singleton, hcount]
        size := List.length_set.trans h.size
        used := fun i hi => by
          rw [List.length_append, List.length_singleton]
          rcases List.mem_append.mp hi with hi | hi
          · have hused := h.used i hi
            omega
          · rw [List.mem_singleton.mp hi]
            omega
        le := by
          rw [List.length_append, List.length_singleton]
          omega
        holds := holds_set h.holds hj hlt hbuf.copy }

/-- The oldest line gives its slot to the new one. -/
theorem shellPushNewHistory_full (hhistory : s.history = some hs)
    (h : HistoryList s.historyLinks s.historyCnt s.historyMaxCnt hs l lines)
    (hcap : 1 ≤ s.historyMaxCnt) (hbuf : s.buf.Holds t)
    (hroom : ¬ s.historyCnt < s.historyMaxCnt) : ∃ hs' links cnt l',
    s.shellPushNewHistory = some { s with
      history := some hs', historyLinks := links, historyCnt := cnt, historyCurr := .head,
      showHistory := false } ∧
    HistoryList links cnt s.historyMaxCnt hs' l' ((lines ++ [t]).rtake s.historyMaxCnt) := by
  have hcount := h.count
  have hlines := h.length_eq
  have hle := h.le
  obtain ⟨j, l', rfl⟩ : ∃ j l', l = j :: l' := List.exists_cons_of_length_pos (by omega)
  obtain ⟨v, lines', rfl⟩ : ∃ v lines', lines = v :: lines' :=
    List.exists_cons_of_length_pos (by omega)
  simp only [List.length_cons] at hcount hlines hle
  have hj : j ∉ l' := (List.nodup_cons.mp h.nodup).1
  have hlt : j < hs.length := by
    rw [h.size]
    exact (h.used j List.mem_cons_self).2
  have hfirst : next s.historyLinks HistoryNode.head = HistoryNode.slot j := h.ring.next_head
  have hall : (v :: lines' ++ [t]).rtake s.historyMaxCnt = lines' ++ [t] := by
    rw [List.rtake, List.length_append, List.length_cons, List.length_singleton,
      show lines'.length + 1 + 1 - s.historyMaxCnt = 1 by omega]
    rfl
  have hdel : IsRing (listDel s.historyLinks (HistoryNode.slot j)) HistoryNode.head
      (l'.map HistoryNode.slot) := listDel_isRing (l := []) h.ring
  have hholds := (List.forall₂_cons.mp h.holds).2
  refine ⟨hs.set j s.buf.copy,
    listAdd (listDel s.historyLinks (HistoryNode.slot j)) (HistoryNode.slot j) HistoryNode.head,
    s.historyCnt, l' ++ [j], ?_, ?_⟩
  · rw [shellPushNewHistory, hhistory]
    dsimp only
    rw [if_neg hroom, hfirst]
    exact if_pos hlt
  · rw [hall]
    exact
      { ring := listAdd_slot hdel hj
        count := by rw [List.length_append, List.length_singleton, hcount]
        size := List.length_set.trans h.size
        used := fun i hi => by
          rw [List.length_append, List.length_singleton]
          refine h.used i ?_
          rcases List.mem_append.mp hi with hi | hi
          · exact List.mem_cons_of_mem _ hi
          · rw [List.mem_singleton.mp hi]
            exact List.mem_cons_self
        le := by
          rw [List.length_append, List.length_singleton]
          exact h.le
        holds := holds_set hholds hj hlt hbuf.copy }

theorem shellPushNewHistory_spec (hhistory : s.history = some hs)
    (h : HistoryList s.historyLinks s.historyCnt s.historyMaxCnt hs l lines)
    (hcap : 1 ≤ s.historyMaxCnt) (hbuf : s.buf.Holds t) : ∃ hs' links cnt l',
    s.shellPushNewHistory = some { s with
      history := some hs', historyLinks := links, historyCnt := cnt, historyCurr := .head,
      showHistory := false } ∧
    HistoryList links cnt s.historyMaxCnt hs' l' ((lines ++ [t]).rtake s.historyMaxCnt) := by
  by_cases hroom : s.historyCnt < s.historyMaxCnt
  · exact shellPushNewHistory_room hhistory h hbuf hroom
  · exact shellPushNewHistory_full hhistory h hcap hbuf hroom

/-! ### The position in the history -/

/-- The node that is the `p`-th most recent line, and the head for `p = 0`. -/
def AtPosition (l : List Nat) (p : Nat) (node : HistoryNode) : Prop :=
  ∃ l₁ l₂, l = l₁ ++ l₂ ∧ l₂.length = p ∧ node = (l₂.map HistoryNode.slot).headD .head

theorem atPosition_head (l : List Nat) : AtPosition l 0 .head :=
  ⟨l, [], (List.append_nil l).symm, rfl, rfl⟩

theorem AtPosition.le (h : AtPosition l p node) : p ≤ l.length := by
  obtain ⟨l₁, l₂, rfl, rfl, -⟩ := h
  rw [List.length_append]
  exact Nat.le_add_left ..

theorem AtPosition.prev (h : AtPosition l p node)
    (hring : IsRing links HistoryNode.head (l.map HistoryNode.slot)) :
    AtPosition l ((p + 1) % (l.length + 1)) (prev links node) := by
  obtain ⟨l₁, l₂, rfl, rfl, rfl⟩ := h
  have hcut := hring
  rw [List.map_append] at hcut
  rw [hcut.cut.1]
  rcases List.eq_nil_or_concat l₁ with rfl | ⟨l₁, i, rfl⟩
  · rw [List.nil_append, Nat.mod_self]
    exact atPosition_head l₂
  · rw [List.concat_eq_append, Nat.mod_eq_of_lt (by
      rw [List.length_append, List.length_append, List.length_singleton]
      omega), List.map_append, List.map_singleton, List.getLastD_concat]
    exact ⟨l₁, i :: l₂, by simp, rfl, rfl⟩

theorem AtPosition.next (h : AtPosition l (p + 1) node)
    (hring : IsRing links HistoryNode.head (l.map HistoryNode.slot)) :
    AtPosition l p (next links node) := by
  obtain ⟨l₁, l₂, rfl, hlen, rfl⟩ := h
  obtain ⟨i, l₂, rfl⟩ := List.exists_cons_of_length_eq_add_one hlen
  have hcut : IsRing links HistoryNode.head
      ((l₁ ++ [i]).map HistoryNode.slot ++ l₂.map HistoryNode.slot) := by
    rw [← List.map_append, List.append_assoc]
    exact hring
  refine ⟨l₁ ++ [i], l₂, by simp, Nat.succ.inj hlen, ?_⟩
  rw [← hcut.cut.2, List.map_append, List.map_singleton, List.getLastD_concat]
  rfl

theorem HistoryList.slot_at (h : HistoryList links cnt size hs l lines)
    (hpos : AtPosition l (p + 1) node) : ∃ i a w, node = .slot i ∧ hs[i]? = some a ∧
      LineBuf.Holds a w ∧ lines.reverse[p]? = some w := by
  obtain ⟨l₁, l₂, rfl, hlen, rfl⟩ := hpos
  obtain ⟨i, l₂, rfl⟩ := List.exists_cons_of_length_eq_add_one hlen
  have hlen := Nat.succ.inj hlen
  have hrev := List.forall₂_drop p (List.forall₂_reverse_iff.mpr h.holds)
  rw [List.reverse_append, List.reverse_cons, List.append_assoc,
    List.drop_left' (by rw [List.length_reverse, hlen])] at hrev
  obtain ⟨w, rest, ⟨a, ha, hw⟩, -, hdrop⟩ := List.forall₂_cons_left_iff.mp hrev
  refine ⟨i, a, w, rfl, ha, hw, ?_⟩
  rw [← Nat.add_zero p, ← List.getElem?_drop, hdrop]
  rfl

end List

/-! ### The arrow keys -/

section Arrows
variable {s : Shell} {hs : List LineBuf} {l : List Nat} {lines : List (List Byte)} {p : Nat}
  {b prompt : List Byte}

theorem AtPosition.zero {node : HistoryNode} (h : AtPosition l 0 node) : node = .head := by
  obtain ⟨l₁, l₂, rfl, hlen, rfl⟩ := h
  rw [List.eq_nil_of_length_eq_zero hlen]
  rfl

theorem showHistoryCurr_spec
    (h : HistoryList s.historyLinks s.historyCnt s.historyMaxCnt hs l lines)
    (hpos : AtPosition l p s.historyCurr) (hbackup : s.inputBackup.Holds b)
    (hprompt : s.prompt.Holds prompt) : ∃ buf w, s.showHistoryCurr hs = some { s with
        buf, charCnt := w.length, cursorPos := w.length,
        showHistory := s.showHistory && decide (p ≠ 0),
        terminal := ⟨prompt ++ w, s.promptLen + w.length⟩ } ∧ buf.Holds w ∧
      (b :: lines.reverse)[p]? = some w := by
  cases p with
  | zero =>
      refine ⟨s.inputBackup.copy, b, ?_, hbackup.copy, rfl⟩
      rw [showHistoryCurr, hpos.zero, Option.bind_eq_bind, Option.bind_some]
      change s.inputBackup.copy.strlen.bind _ = _
      rw [hbackup.copy.strlen, Option.bind_some]
      refine (shellRefreshLine_eq (s := { s with
        buf := s.inputBackup.copy, charCnt := b.length, cursorPos := b.length,
        showHistory := false, historyCurr := .head }) hprompt hbackup.copy).trans ?_
      simp
  | succ p =>
      obtain ⟨i, a, w, hnode, ha, hw, hline⟩ := h.slot_at hpos
      refine ⟨a.copy, w, ?_, hw.copy, hline⟩
      rw [showHistoryCurr, hnode]
      dsimp only
      rw [ha, Option.bind_eq_bind, Option.bind_some]
      change a.copy.strlen.bind _ = _
      rw [hw.copy.strlen, Option.bind_some]
      refine (shellRefreshLine_eq (s := { s with
        buf := a.copy, charCnt := w.length, cursorPos := w.length, historyCurr := .slot i })
        hprompt hw.copy).trans ?_
      simp

/-- Where the input is saved while the history is scrolled. -/
def Saved (s : Shell) (b : List Byte) : Prop :=
  if s.showHistory = true then s.inputBackup.Holds b else s.buf.Holds b

theorem shellUpArrowHandler_spec (hhistory : s.history = some hs)
    (h : HistoryList s.historyLinks s.historyCnt s.historyMaxCnt hs l lines) (hne : l ≠ [])
    (hpos : AtPosition l p s.historyCurr) (hsaved : s.Saved b) (hprompt : s.prompt.Holds prompt) :
    ∃ inputBackup buf w, s.shellUpArrowHandler = some { s with
        inputBackup, buf, charCnt := w.length, cursorPos := w.length,
        historyCurr := prev s.historyLinks s.historyCurr,
        showHistory := decide ((p + 1) % (l.length + 1) ≠ 0),
        terminal := ⟨prompt ++ w, s.promptLen + w.length⟩ } ∧
      inputBackup.Holds b ∧ buf.Holds w ∧
      (b :: lines.reverse)[(p + 1) % (l.length + 1)]? = some w := by
  have hempty : ¬listEmpty s.historyLinks HistoryNode.head = true := fun hempty =>
    hne (List.map_eq_nil_iff.mp ((listEmpty_iff h.ring).mp hempty))
  rw [shellUpArrowHandler, hhistory]
  dsimp only
  rw [if_neg hempty]
  cases hshow : s.showHistory with
  | true =>
      rw [Saved, if_pos hshow] at hsaved
      rw [if_pos rfl]
      obtain ⟨buf, w, heq, hbuf, hline⟩ := showHistoryCurr_spec
        (s := { s with historyCurr := prev s.historyLinks s.historyCurr }) h (hpos.prev h.ring)
        hsaved hprompt
      refine ⟨s.inputBackup, buf, w, ?_, hsaved, hbuf, hline⟩
      refine heq.trans ?_
      simp only [hhistory, hshow, Bool.true_and]
  | false =>
      rw [Saved, if_neg (by rw [hshow]; decide)] at hsaved
      rw [if_neg (by decide)]
      obtain ⟨buf, w, heq, hbuf, hline⟩ := showHistoryCurr_spec
        (s := { s with
          history := some hs, inputBackup := s.buf.copy, showHistory := true,
          historyCurr := prev s.historyLinks s.historyCurr }) h (hpos.prev h.ring)
        hsaved.copy hprompt
      refine ⟨s.buf.copy, buf, w, ?_, hsaved.copy, hbuf, hline⟩
      refine heq.trans ?_
      simp only [Bool.true_and]

theorem shellDownArrowHandler_spec (hhistory : s.history = some hs)
    (h : HistoryList s.historyLinks s.historyCnt s.historyMaxCnt hs l lines)
    (hshow : s.showHistory = true) (hpos : AtPosition l (p + 1) s.historyCurr)
    (hsaved : s.inputBackup.Holds b) (hprompt : s.prompt.Holds prompt) :
    ∃ buf w, s.shellDownArrowHandler = some { s with
        buf, charCnt := w.length, cursorPos := w.length,
        historyCurr := next s.historyLinks s.historyCurr, showHistory := decide (p ≠ 0),
        terminal := ⟨prompt ++ w, s.promptLen + w.length⟩ } ∧ buf.Holds w ∧
      (b :: lines.reverse)[p]? = some w := by
  rw [shellDownArrowHandler, hhistory]
  dsimp only
  rw [if_pos hshow]
  obtain ⟨buf, w, heq, hbuf, hline⟩ := showHistoryCurr_spec
    (s := { s with history := some hs, historyCurr := next s.historyLinks s.historyCurr }) h (hpos.next h.ring)
    hsaved hprompt
  refine ⟨buf, w, ?_, hbuf, hline⟩
  refine heq.trans ?_
  simp only [hshow, Bool.true_and]

end Arrows

end Shell

end Tenok
