import Tenok.User.ShellRuns

/-!
The arrow keys on a fresh line, as an index into the lines that are kept.
-/
namespace Tenok
open Ring

inductive Arrow
  | up
  | down
  deriving DecidableEq, Repr

namespace Arrow

def key : Arrow → ShellKey
  | up => .up
  | down => .down

/-- The position after the key, with `0` for the input of the user. -/
def move (entries p : Nat) : Arrow → Nat
  | up => (p + 1) % (entries + 1)
  | down => p - 1

def position (entries : Nat) (arrows : List Arrow) : Nat := arrows.foldl (move entries) 0

theorem foldl_move_up {entries p : Nat} (hp : p ≤ entries) (n : Nat) :
    (List.replicate n up).foldl (move entries) p = (p + n) % (entries + 1) := by
  induction n generalizing p with
  | zero => exact (Nat.mod_eq_of_lt (Nat.lt_succ_of_le hp)).symm
  | succ n ih =>
      have hmove : move entries p up ≤ entries := Nat.le_of_lt_succ (Nat.mod_lt _ (Nat.succ_pos _))
      rw [List.replicate_succ, List.foldl_cons, ih hmove, move, Nat.mod_add_mod, Nat.add_assoc,
        Nat.add_comm 1]

theorem foldl_move_zero (arrows : List Arrow) : arrows.foldl (move 0) 0 = 0 := by
  induction arrows with
  | nil => rfl
  | cons a arrows ih => cases a <;> exact ih

end Arrow

/-- The saved input, or the line that has been entered as the `p`-th last. -/
def lineAt (lines : List (List Byte)) (saved : List Byte) (p : Nat) : Option (List Byte) :=
  (saved :: lines.reverse)[p]?

namespace Shell
variable {s s' : Shell} {hs : List LineBuf} {l : List Nat} {lines : List (List Byte)} {p : Nat}
  {b prompt : List Byte}

def pressArrow (s : Shell) (a : Arrow) : Option Shell := s.press a.key

/-- The history is at position `p`, and the input of the user has been saved. -/
structure Scrolling (s : Shell) (hs : List LineBuf) (l : List Nat) (lines : List (List Byte))
    (prompt b : List Byte) (p : Nat) : Prop where
  history : s.history = some hs
  list : HistoryList s.historyLinks s.historyCnt s.historyMaxCnt hs l lines
  pos : AtPosition l p s.historyCurr
  saved : s.Saved b
  prompt : s.prompt.Holds prompt

structure Shown (s : Shell) (lines : List (List Byte)) (prompt b : List Byte) (p : Nat) : Prop where
  showHistory : s.showHistory = decide (p ≠ 0)
  terminal : ∃ w, lineAt lines b p = some w ∧ s.terminal.text = prompt ++ w

/-! ### One key -/

theorem Scrolling.moved {q : Nat} {node : HistoryNode} {inputBackup buf : LineBuf} {w : List Byte}
    {charCnt cursorPos : Int} {terminal : TerminalLine} (h : s.Scrolling hs l lines prompt b p)
    (hpos : AtPosition l q node) (hb : inputBackup.Holds b) (hbuf : buf.Holds w)
    (hw : lineAt lines b q = some w) :
    Scrolling { s with
      inputBackup, buf, charCnt, cursorPos, historyCurr := node, showHistory := decide (q ≠ 0),
      terminal } hs l lines prompt b q where
  history := h.history
  list := h.list
  pos := hpos
  saved := by
    by_cases hq : q = 0
    · subst hq
      obtain rfl := Option.some.inj hw
      exact hbuf
    · rw [Saved, if_pos (decide_eq_true hq)]
      exact hb
  prompt := h.prompt

theorem Scrolling.up (h : s.Scrolling hs l lines prompt b p) (hne : l ≠ []) :
    ∃ s', s.pressArrow .up = some s' ∧
      s'.Scrolling hs l lines prompt b ((p + 1) % (l.length + 1)) ∧
      s'.Shown lines prompt b ((p + 1) % (l.length + 1)) := by
  obtain ⟨inputBackup, buf, w, hup, hb, hbuf, hw⟩ :=
    shellUpArrowHandler_spec h.history h.list hne h.pos h.saved h.prompt
  exact ⟨_, hup, h.moved (h.pos.prev h.list.ring) hb hbuf hw, rfl, w, hw, rfl⟩

theorem Scrolling.down (h : s.Scrolling hs l lines prompt b (p + 1)) (hmode : s.showHistory = true) :
    ∃ s', s.pressArrow .down = some s' ∧ s'.Scrolling hs l lines prompt b p ∧
      s'.Shown lines prompt b p := by
  have hb := h.saved
  rw [Saved, if_pos hmode] at hb
  obtain ⟨buf, w, hdown, hbuf, hw⟩ :=
    shellDownArrowHandler_spec h.history h.list hmode h.pos hb h.prompt
  exact ⟨_, hdown, h.moved (h.pos.next h.list.ring) hb hbuf hw, rfl, w, hw, rfl⟩

theorem pressArrow_down (hhistory : s.history = some hs) (hmode : s.showHistory = false) :
    s.pressArrow .down = some s := by
  change s.shellDownArrowHandler = some s
  rw [shellDownArrowHandler, hhistory]
  exact if_neg (by rw [hmode]; decide)

theorem pressArrow_of_nil (hhistory : s.history = some hs)
    (h : HistoryList s.historyLinks s.historyCnt s.historyMaxCnt hs [] lines)
    (hmode : s.showHistory = false) (a : Arrow) : s.pressArrow a = some s := by
  cases a with
  | up =>
      change s.shellUpArrowHandler = some s
      rw [shellUpArrowHandler, hhistory]
      exact if_pos ((listEmpty_iff h.ring).mpr rfl)
  | down => exact pressArrow_down hhistory hmode

/-! ### Runs of keys -/

theorem Scrolling.exec_ups (h : s.Scrolling hs l lines prompt b p) (hne : l ≠ []) (n : Nat) :
    ∃ s', Runs.exec pressArrow s (List.replicate (n + 1) .up) = some s' ∧
      s'.Shown lines prompt b ((p + (n + 1)) % (l.length + 1)) ∧ s'.prompt.Holds prompt := by
  induction n generalizing s p with
  | zero =>
      obtain ⟨s', hup, h', hshown⟩ := h.up hne
      refine ⟨s', ?_, hshown, h'.prompt⟩
      rw [List.replicate_succ, List.replicate_zero, Runs.exec, hup]
      rfl
  | succ n ih =>
      obtain ⟨s₁, hup, h₁, -⟩ := h.up hne
      obtain ⟨s', hrun, hshown, hprompt⟩ := ih h₁
      refine ⟨s', ?_, ?_, hprompt⟩
      · rw [List.replicate_succ, Runs.exec, hup]
        exact hrun
      · rw [Nat.mod_add_mod, Nat.add_assoc, Nat.add_comm 1] at hshown
        exact hshown

theorem Scrolling.exec_arrows (h : s.Scrolling hs l lines prompt b p) (hne : l ≠ [])
    (hshown : s.Shown lines prompt b p) (arrows : List Arrow) :
    ∃ s', Runs.exec pressArrow s arrows = some s' ∧
      s'.Shown lines prompt b (arrows.foldl (Arrow.move l.length) p) ∧ s'.prompt.Holds prompt := by
  induction arrows generalizing s p with
  | nil => exact ⟨s, rfl, hshown, h.prompt⟩
  | cons a arrows ih =>
      have hstep : ∃ s₁, s.pressArrow a = some s₁ ∧
          s₁.Scrolling hs l lines prompt b (a.move l.length p) ∧
          s₁.Shown lines prompt b (a.move l.length p) := by
        cases a with
        | up => exact h.up hne
        | down =>
            cases p with
            | zero => exact ⟨s, pressArrow_down h.history hshown.showHistory, h, hshown⟩
            | succ p => exact h.down (hshown.showHistory.trans (by simp))
      obtain ⟨s₁, hpress, h₁, hshown₁⟩ := hstep
      obtain ⟨s', hrun, hshown', hprompt⟩ := ih h₁ hshown₁
      refine ⟨s', ?_, hshown', hprompt⟩
      rw [Runs.exec, hpress]
      exact hrun

theorem exec_arrows_of_nil (hhistory : s.history = some hs)
    (h : HistoryList s.historyLinks s.historyCnt s.historyMaxCnt hs [] lines)
    (hmode : s.showHistory = false) (arrows : List Arrow) :
    Runs.exec pressArrow s arrows = some s := by
  induction arrows with
  | nil => rfl
  | cons a arrows ih =>
      rw [Runs.exec, pressArrow_of_nil hhistory h hmode a]
      exact ih

/-! ### A fresh line -/

def ShowsLines (s : Shell) (lines : List (List Byte)) (arrows : List Arrow) : Prop :=
  ∃ s' prompt w, Runs.exec pressArrow s arrows = some s' ∧ s'.prompt.string = some prompt ∧
    lineAt lines [] (Arrow.position lines.length arrows) = some w ∧ s'.terminal.text = prompt ++ w

/-- The arrow keys work on a fresh line exactly if the history is where the input of the user is, and that
is empty. -/
theorem showsLines_iff (hhistory : s.history = some hs)
    (h : HistoryList s.historyLinks s.historyCnt s.historyMaxCnt hs l lines)
    (hcurr : l ≠ [] → AtPosition l p s.historyCurr) {t : List Byte} (hbuf : s.buf.Holds t)
    (hprompt : s.prompt.Holds prompt) (hlines : ∀ w ∈ lines, w ≠ []) (hfresh : s.FreshLine) :
    (∀ arrows, s.ShowsLines lines arrows) ↔ lines = [] ∨ s.AtInput := by
  have hsaved : s.Saved t := by
    rw [Saved, if_neg (by rw [hfresh.showHistory]; decide)]
    exact hbuf
  have hlen := h.length_eq
  have hshown : s.terminal.text = prompt ++ [] := by
    rw [List.append_nil]
    exact Option.some.inj (hfresh.shown.symm.trans hprompt.string)
  have hnil : l = [] ↔ lines = [] := by
    rw [← List.length_eq_zero_iff, hlen, List.length_eq_zero_iff]
  by_cases hne : l = []
  · subst hne
    refine iff_of_true (fun arrows => ?_) (Or.inl (hnil.mp rfl))
    refine ⟨s, prompt, [], exec_arrows_of_nil hhistory h hfresh.showHistory arrows, hprompt.string, ?_,
      hshown⟩
    rw [hnil.mp rfl, Arrow.position, List.length_nil, Arrow.foldl_move_zero]
    rfl
  have hscroll : s.Scrolling hs l lines prompt t p := ⟨hhistory, h, hcurr hne, hsaved, hprompt⟩
  constructor
  · -- once around the history, the place where it started is shown
    intro hall
    have hp := hscroll.pos.le
    obtain ⟨s', hrun, ⟨-, w, hw, hterm⟩, hprompt'⟩ := hscroll.exec_ups hne l.length
    obtain ⟨s'', prompt', w', hrun', hstring, hw', hterm'⟩ :=
      hall (List.replicate (l.length + 1) .up)
    obtain rfl := Option.some.inj (hrun.symm.trans hrun')
    obtain rfl := Option.some.inj (hprompt'.string.symm.trans hstring)
    rw [Arrow.position, Arrow.foldl_move_up (Nat.zero_le _), Nat.zero_add, ← hlen, Nat.mod_self] at hw'
    rw [Nat.add_mod_right, Nat.mod_eq_of_lt (Nat.lt_succ_of_le hp)] at hw
    obtain rfl := Option.some.inj hw'
    obtain rfl := List.append_cancel_left (hterm.symm.trans hterm')
    cases p with
    | zero =>
        obtain rfl := Option.some.inj hw
        exact Or.inr ⟨hscroll.pos.zero, hbuf.string⟩
    | succ p => exact absurd rfl (hlines [] (List.mem_reverse.mp (List.mem_of_getElem? hw)))
  · rintro (hempty | ⟨hhead, hstring⟩) arrows
    · exact absurd (hnil.mpr hempty) hne
    · obtain rfl := Option.some.inj (hbuf.string.symm.trans hstring)
      have hscroll : s.Scrolling hs l lines prompt [] 0 :=
        ⟨hhistory, h, hhead ▸ atPosition_head l, hsaved, hprompt⟩
      obtain ⟨s', hrun, ⟨-, w, hw, hterm⟩, hprompt'⟩ :=
        hscroll.exec_arrows hne ⟨hfresh.showHistory, [], rfl, hshown⟩ arrows
      rw [hlen] at hw
      exact ⟨s', prompt, w, hrun, hprompt'.string, hw, hterm⟩

end Shell

namespace ShellSession
variable {x y : ShellSession} {setup : ShellSetup} {exact : Bool} {c : Byte}

theorem Sound.exec {bytes : List Byte} (h : x.Sound false setup)
    (hok : Runs.AllOk TabOk ShellSession.step x bytes) :
    ∃ y, Runs.exec ShellSession.step x bytes = some y ∧ y.Sound false setup :=
  Runs.exec_of_allOk (I := Sound false setup) (fun _ _ hx hc =>
    (hx.step hc fun h => absurd h Bool.false_ne_true).imp fun _ hy => ⟨hy.1, hy.2.1⟩) h hok

/-- The history holds the newest lines, each in a slot of its own. On a fresh line the arrow keys go
through them exactly if there are none, or `history_curr` is the head and `buf` is empty. -/
theorem shellHistory_iff_atInput {s₀ s : Shell} {shellCmds : Option (List ShellCmd)}
    {history : List LineBuf} {autocompl : Option (List LineBuf)} {historyMaxCnt : Nat}
    {newPrompt : List Byte}
    (hstart : s₀.start shellCmds (some history) historyMaxCnt autocompl newPrompt = some s)
    (hsize : history.length = historyMaxCnt) (hcap : 1 ≤ historyMaxCnt) {bytes : List Byte}
    (hok : Runs.AllOk TabOk step (init s) bytes) :
    ∃ x, Runs.exec step (init s) bytes = some x ∧
      (∃ hs l, x.shell.history = some hs ∧
        Shell.HistoryList x.shell.historyLinks x.shell.historyCnt historyMaxCnt hs l
          (x.entered.rtake historyMaxCnt) ∧
        l.length = min x.entered.length historyMaxCnt ∧ l.Nodup) ∧
      (x.shell.FreshLine → ((∀ arrows, x.shell.ShowsLines (x.entered.rtake historyMaxCnt) arrows) ↔
        x.entered = [] ∨ x.shell.AtInput)) := by
  obtain ⟨prompt, hsound, -⟩ := Shell.start_sound hstart fun hs hhs => by
    obtain rfl := Option.some.inj hhs
    exact ⟨hsize, hcap⟩
  have hexact : Sound false ⟨shellCmds, historyMaxCnt, true, prompt⟩ (init s) :=
    { hsound with line := hsound.line.imp fun t ht => ⟨ht.1, ht.2.imp_right fun h => ⟨rfl, h.2⟩⟩ }
  obtain ⟨x, hrun, hx⟩ := hexact.exec hok
  obtain ⟨hs, hhs⟩ : ∃ hs, x.shell.history = some hs := Option.isSome_iff_exists.mp hx.saves
  obtain ⟨l, p, hl⟩ := hx.history hs hhs
  have hmax : x.shell.historyMaxCnt = historyMaxCnt := hx.historyMaxCnt
  have hlist := hl.list
  rw [hmax] at hlist
  have hlen : l.length = min x.entered.length historyMaxCnt := by
    rw [hlist.length_eq, List.rtake, List.length_drop]
    omega
  refine ⟨x, hrun, ⟨hs, l, hhs, hlist, hlen, hlist.nodup⟩, fun hfresh => ?_⟩
  obtain ⟨t, hbuf, -⟩ := hx.line
  have hnil : x.entered.rtake historyMaxCnt = [] ↔ x.entered = [] := by
    rw [← List.length_eq_zero_iff, ← hlist.length_eq, hlen, ← List.length_eq_zero_iff]
    omega
  have hlines : ∀ w ∈ x.entered.rtake historyMaxCnt, w ≠ [] := fun w hw =>
    hx.entered w (List.mem_of_mem_drop hw)
  rw [Shell.showsLines_iff hhs (hmax.symm ▸ hlist) hl.curr hbuf hx.prompt hlines hfresh, hnil]

/-- The lines a and b in a history of two lines. -/
theorem shellHistory_iff_ab : ∃ s,
    Shell.zero.start (some []) (some [.zero, .zero]) 2 none [] = some s ∧
    ∃ x, Runs.exec step (init s) [97#8, 13#8, 98#8, 13#8] = some x ∧
      (∃ hs l, x.shell.history = some hs ∧
        Shell.HistoryList x.shell.historyLinks x.shell.historyCnt 2 hs l (x.entered.rtake 2) ∧
        l.length = min x.entered.length 2 ∧ l.Nodup) ∧
      (x.shell.FreshLine → ((∀ arrows, x.shell.ShowsLines (x.entered.rtake 2) arrows) ↔
        x.entered = [] ∨ x.shell.AtInput)) := by
  refine ⟨_, rfl, shellHistory_iff_atInput
    (show Shell.zero.start (some []) (some [.zero, .zero]) 2 none [] = some _ from rfl) rfl (by decide)
    (allOk_of_onKey rfl fun c hc => ?_)⟩
  simp only [List.mem_cons, List.not_mem_nil, or_false] at hc
  obtain rfl | rfl | rfl | rfl := hc <;> exact ⟨rfl, fun x hx htab => by cases hx.symm.trans htab⟩

/-- After the lines a and b, Up and Ctrl-C, the next Up shows a and not b. -/
theorem shellHistory_not_after_ctrlC : ∃ s x s',
    Shell.zero.start (some []) (some [.zero, .zero]) 2 none [] = some s ∧
    Runs.exec step (init s) [97#8, 13#8, 98#8, 13#8, 27#8, 91#8, 65#8, 3#8] = some x ∧
    x.shell.FreshLine ∧ x.shell.pressArrow .up = some s' ∧ s'.terminal.text = [97#8] ∧
    lineAt (x.entered.rtake 2) [] (Arrow.position 2 [.up]) = some [98#8] :=
  ⟨_, _, _, rfl, rfl, ⟨rfl, rfl, rfl, rfl⟩, rfl, rfl, rfl⟩

end ShellSession

end Tenok
