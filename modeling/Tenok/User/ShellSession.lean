import Tenok.Lib.LineEditor
import Tenok.Lib.Runs
import Tenok.User.ShellComplete
import Tenok.User.ShellHistory

/-!
The shell byte after byte, next to the line that its user edits and the lines that have been entered.
-/
namespace Tenok
open Ring

namespace Shell

/-! ### What the keys do to the line -/

def completed (s : Shell) : Option (List Byte) := do
  let entries ← s.autocompl
  let argv0 ← s.argv0
  let (argv0Start, _) ← argv0
  if s.showAutocompl ∧ s.autocomplCursorPos = s.cursorPos then
    if s.autocomplCurr = s.autocomplCnt then s.inputBackup.string
    else entries[s.autocomplCurr]?.bind LineBuf.string
  else do
    let t ← s.buf.string
    some ((completions s.buf.bytes t argv0Start s.cursorPos.toNat s.cmds).headD t)

/-- The line of a node of the history, or the saved input. -/
def recalled (s : Shell) (history : List LineBuf) : HistoryNode → Option (List Byte)
  | .head => if s.showHistory then s.inputBackup.string else s.buf.string
  | .slot i => history[i]?.bind LineBuf.string

def recalledUp (s : Shell) : Option (List Byte) := do
  let history ← s.history
  if listEmpty s.historyLinks HistoryNode.head then none
  else s.recalled history (prev s.historyLinks s.historyCurr)

def recalledDown (s : Shell) : Option (List Byte) := do
  let history ← s.history
  if s.showHistory then s.recalled history (next s.historyLinks s.historyCurr) else none

def edit (s : Shell) : ShellKey → LineEdit Byte
  | .none => .keep
  | .ctrlA | .home => .home
  | .left => .left
  | .ctrlC | .ctrlU | .enter => .clear
  | .ctrlE | .toEnd => .toEnd
  | .right => .right
  | .tab => (s.completed.map LineEdit.substitute).getD .keep
  | .up => (s.recalledUp.map LineEdit.replace).getD .keep
  | .down => (s.recalledDown.map LineEdit.replace).getD .keep
  | .delete => .deleteAt
  | .backspace => .deleteBefore
  | .default c => .insert c

/-- A Tab shows a line that has room: candidates that fit in their entries, and a saved input that
reaches to the cursor. -/
def TabOk (s : Shell) : Prop :=
  s.autocompl ≠ none → ∀ i j, s.argv0 = some (some (i, j)) →
    if s.showAutocompl ∧ s.autocomplCursorPos = s.cursorPos then
      s.autocomplCurr = s.autocomplCnt → ∀ b, s.inputBackup.string = some b → s.cursorPos ≤ b.length
    else ∀ t, s.buf.string = some t →
      ∀ w ∈ completions s.buf.bytes t i s.cursorPos.toNat s.cmds, w.length < lineMax

instance decidableTabOk (s : Shell) : Decidable s.TabOk :=
  decidable_of_iff (s.autocompl.isSome = true → ∀ q ∈ s.argv0, ∀ p ∈ q,
    if s.showAutocompl ∧ s.autocomplCursorPos = s.cursorPos then
      s.autocomplCurr = s.autocomplCnt → ∀ b ∈ s.inputBackup.string, s.cursorPos ≤ b.length
    else ∀ t ∈ s.buf.string,
      ∀ w ∈ completions s.buf.bytes t p.1 s.cursorPos.toNat s.cmds, w.length < lineMax) (by
    rw [TabOk, Option.isSome_iff_ne_none]
    refine imp_congr_right fun _ => ⟨fun h i j hargv => h _ hargv _ rfl, fun h q hq p hp => ?_⟩
    obtain rfl := Option.mem_def.mp hp
    exact h p.1 p.2 hq)

end Shell

abbrev ShellEditor := LineEditor Byte (lineMax - 1)

structure ShellSetup where
  shellCmds : Option (List ShellCmd)
  historyMaxCnt : Nat
  /-- There is an array for the history. -/
  saves : Bool
  prompt : List Byte

structure ShellSession where
  shell : Shell
  /-- What has been read of an escape sequence. -/
  input : ShellInput
  editor : ShellEditor
  entered : List (List Byte)

namespace ShellSession

def key (x : ShellSession) (c : Byte) : ShellKey := (x.input.next c).2

def step (x : ShellSession) (c : Byte) : Option ShellSession := do
  let shell ← x.shell.press (x.key c)
  some
    { shell
      input := (x.input.next c).1
      editor := x.editor.apply (x.shell.edit (x.key c))
      entered := if x.key c = .enter ∧ x.editor.text ≠ [] then x.entered ++ [x.editor.text]
        else x.entered }

end ShellSession

namespace Shell
variable {s s' : Shell} {e e' : ShellEditor} {entered : List (List Byte)} {setup : ShellSetup}
  {t w b : List Byte}
  {exact exact' : Bool} {buf : LineBuf} {charCnt cursorPos : Int} {terminal : TerminalLine}
  {showHistory showAutocompl outside : Bool} {n : Nat} {c : Byte}

/-- The words of a completion that is going on. -/
structure Completing (s : Shell) (ws : List (List Byte)) : Prop where
  count : s.autocomplCnt = ws.length
  filled : Filled (s.autocompl.getD []) ws
  le : s.autocomplCurr ≤ ws.length
  reach : ∀ w ∈ ws, s.autocomplCursorPos ≤ w.length

/-- The lines that are kept, and the place in them. -/
structure Remembers (s : Shell) (hs : List LineBuf) (entered : List (List Byte)) (l : List Nat)
    (p : Nat) : Prop where
  capacity : 1 ≤ s.historyMaxCnt
  list : HistoryList s.historyLinks s.historyCnt s.historyMaxCnt hs l
    (entered.rtake s.historyMaxCnt)
  curr : l ≠ [] → AtPosition l p s.historyCurr
  scrolling : s.showHistory = true → l ≠ [] ∧ 0 < p

/-- The shell has the line of the user. Where this is not exact, a line that was dropped is still in
`buf`. -/
structure Sound (exact : Bool) (s : Shell) (e : ShellEditor) (entered : List (List Byte))
    (setup : ShellSetup) : Prop where
  line : ∃ t, s.buf.Holds t ∧ (e.text = t ∨ exact = false ∧ e.text = [])
  charCnt : s.charCnt = e.text.length
  cursorPos : s.cursorPos = e.cursor
  prompt : s.prompt.Holds setup.prompt
  shellCmds : s.shellCmds = setup.shellCmds
  historyMaxCnt : s.historyMaxCnt = setup.historyMaxCnt
  saves : s.history.isSome = setup.saves
  backup : s.showHistory = true ∨ s.showAutocompl = true → ∃ b, s.inputBackup.Holds b
  room : ∀ entries, s.autocompl = some entries → s.cmds.length ≤ entries.length
  completing : s.showAutocompl = true → ∃ ws, s.Completing ws
  history : ∀ hs, s.history = some hs → ∃ l p, s.Remembers hs entered l p
  entered : ∀ w ∈ entered, w ≠ []

theorem Sound.remembers (h : Sound exact s e entered setup) (hhistory : s'.history = s.history)
    (hlinks : s'.historyLinks = s.historyLinks) (hcnt : s'.historyCnt = s.historyCnt)
    (hmax : s'.historyMaxCnt = s.historyMaxCnt) (hcurr : s'.historyCurr = s.historyCurr)
    (hmode : s'.showHistory = true → s.showHistory = true) :
    ∀ hs, s'.history = some hs → ∃ l p, s'.Remembers hs entered l p := by
  intro hs hhs
  obtain ⟨l, p, hl⟩ := h.history hs (hhistory.symm.trans hhs)
  refine ⟨l, p, ?_, ?_, ?_, fun hshow => hl.scrolling (hmode hshow)⟩
  · rw [hmax]
    exact hl.capacity
  · rw [hlinks, hcnt, hmax]
    exact hl.list
  · rw [hcurr]
    exact hl.curr

theorem Sound.edited (h : Sound exact' s e entered setup) (hbuf : buf.Holds t)
    (htext : e'.text = t ∨ exact = false ∧ e'.text = []) (hcount : charCnt = e'.text.length)
    (hcursor : cursorPos = e'.cursor) (hhistory : showHistory = true → s.showHistory = true)
    (hautocompl : showAutocompl = true → s.showAutocompl = true) :
    Sound exact { s with
      buf, charCnt, cursorPos, showHistory, showAutocompl, terminal, outside } e' entered setup where
  line := ⟨t, hbuf, htext⟩
  charCnt := hcount
  cursorPos := hcursor
  prompt := h.prompt
  shellCmds := h.shellCmds
  historyMaxCnt := h.historyMaxCnt
  saves := h.saves
  backup hmode := h.backup (hmode.imp hhistory hautocompl)
  room := h.room
  completing hmode :=
    (h.completing (hautocompl hmode)).imp fun _ hws =>
    ⟨hws.count, hws.filled, hws.le, hws.reach⟩
  history := h.remembers rfl rfl rfl rfl rfl hhistory
  entered := h.entered

theorem Sound.holds (h : Sound exact s e entered setup) (hne : e.text ≠ []) :
    s.buf.Holds e.text := by
  obtain ⟨t, hbuf, rfl | ⟨-, hnil⟩⟩ := h.line
  · exact hbuf
  · exact absurd hnil hne

/-! ### Keys -/

/-- A printable character that is typed at the start of the line. -/
def typesAtStart (e : ShellEditor) : ShellKey → Bool
  | .default _ => decide (e.cursor = 0 ∧ e.text.length < lineMax - 1)
  | _ => false

/-- A key that leaves no text in `buf` that the user does not have. -/
def KeepsExact (s : Shell) (e : ShellEditor) : ShellKey → Prop
  | .ctrlC => e.text = []
  | .enter => e.text = [] ∨ s.shellCmds ≠ none
  | _ => True

instance decidableKeepsExact (s : Shell) (e : ShellEditor) :
    (key : ShellKey) → Decidable (s.KeepsExact e key)
  | .ctrlC => inferInstanceAs (Decidable (e.text = []))
  | .enter => decidable_of_iff (e.text = [] ∨ s.shellCmds.isSome = true)
      (or_congr_right Option.isSome_iff_ne_none)
  | .none | .ctrlA | .home | .left | .ctrlU | .ctrlE | .toEnd | .right | .tab | .up | .down
  | .delete | .backspace | .default _ => inferInstanceAs (Decidable True)

theorem Sound.refresh (h : Sound exact s e entered setup) : ∃ s', s.shellRefreshLine = some s' ∧
    Sound exact s' e entered setup ∧ s'.outside = s.outside := by
  obtain ⟨t, hbuf, htext⟩ := h.line
  refine ⟨_, shellRefreshLine_eq h.prompt hbuf, ?_, rfl⟩
  exact h.edited hbuf htext h.charCnt h.cursorPos (fun hmode => hmode) fun hmode => hmode

theorem Sound.same (h : Sound exact s e entered setup) (he : e' = e) :
    Sound exact s e' entered setup ∧ s.outside = s.outside := ⟨he ▸ h, rfl⟩

theorem Sound.moved (h : Sound exact s e entered setup) (htext : e'.text = e.text)
    (hcursor : cursorPos = e'.cursor) :
    ∃ s', shellRefreshLine { s with cursorPos } = some s' ∧ Sound exact s' e' entered setup ∧
      s'.outside = s.outside := by
  obtain ⟨t, hbuf, hline⟩ := h.line
  have h' : Sound exact { s with cursorPos } e' entered setup :=
    h.edited hbuf (htext ▸ hline) (htext ▸ h.charCnt) hcursor (fun hmode => hmode) fun hmode => hmode
  exact h'.refresh

theorem Sound.home (h : Sound exact s e entered setup) :
    ∃ s', s.shellHomeHandler = some s' ∧ Sound exact s' e.home entered setup ∧
      s'.outside = s.outside := h.moved rfl rfl

theorem Sound.toEnd (h : Sound exact s e entered setup) :
    ∃ s', s.shellEndHandler = some s' ∧ Sound exact s' e.toEnd entered setup ∧
      s'.outside = s.outside := by
  have hle := e.cursor_le
  rw [shellEndHandler]
  split
  · next hzero =>
      have hcount := h.charCnt
      exact ⟨s, rfl, h.same (LineEditor.toEnd_end (by omega))⟩
  · exact h.moved rfl h.charCnt

theorem Sound.left (h : Sound exact s e entered setup) :
    ∃ s', s.shellCursorShiftOneLeft = some s' ∧ Sound exact s' e.left entered setup ∧
      s'.outside = s.outside := by
  have hcursor := h.cursorPos
  rw [shellCursorShiftOneLeft]
  split
  · exact ⟨s, rfl, h.same (LineEditor.left_start (by omega))⟩
  · refine h.moved rfl ?_
    change s.cursorPos - 1 = ((e.cursor - 1 : Nat) : Int)
    omega

theorem Sound.right (h : Sound exact s e entered setup) :
    ∃ s', s.shellCursorShiftOneRight = some s' ∧ Sound exact s' e.right entered setup ∧
      s'.outside = s.outside := by
  have hcursor := h.cursorPos
  have hcount := h.charCnt
  have hle := e.cursor_le
  rw [shellCursorShiftOneRight]
  split
  · exact ⟨s, rfl, h.same (LineEditor.right_end (by omega))⟩
  · obtain ⟨htext, hright⟩ := LineEditor.right_eq (e := e) (by omega)
    exact h.moved htext (by omega)

theorem Sound.ctrlC (h : Sound exact s e entered setup) (hok : exact = true → e.text = []) :
    ∃ s', s.shellCtrlCHandler = some s' ∧ Sound exact s' LineEditor.empty entered setup ∧
      s'.outside = s.outside := by
  obtain ⟨t, hbuf, hline⟩ := h.line
  have hdropped : (LineEditor.empty : ShellEditor).text = t ∨
      exact = false ∧ (LineEditor.empty : ShellEditor).text = [] := by
    cases exact with
    | true => exact hline.imp (fun ht => (hok rfl).symm.trans ht) fun hnil => ⟨hnil.1, rfl⟩
    | false => exact Or.inr ⟨rfl, rfl⟩
  have hempty : Sound exact { s with
      cursorPos := 0, charCnt := 0, showHistory := false, showAutocompl := false,
      terminal := ⟨setup.prompt, setup.prompt.length⟩ } LineEditor.empty entered setup :=
    h.edited hbuf hdropped rfl rfl (fun hmode => absurd hmode Bool.false_ne_true) fun hmode =>
      absurd hmode Bool.false_ne_true
  have hprompt : s.shellResetAutocomplete.shellResetHistoryScrolling.prompt.Holds setup.prompt :=
    h.prompt
  rw [shellCtrlCHandler, putPrompt_eq hprompt]
  exact ⟨_, rfl, hempty, rfl⟩

theorem Sound.ctrlU (h : Sound exact s e entered setup) :
    ∃ s', s.shellCtrlUHandler = some s' ∧ Sound exact s' LineEditor.empty entered setup ∧
      s'.outside = s.outside := by
  obtain ⟨buf, hwrite, hbuf⟩ := s.buf.write_zero
  rw [shellCtrlUHandler, hwrite]
  have h' : Sound exact { s with buf, charCnt := 0, cursorPos := 0 } LineEditor.empty entered setup :=
    h.edited hbuf (Or.inl rfl) rfl rfl (fun hmode => hmode) fun hmode => hmode
  exact h'.refresh

theorem Sound.delete (h : Sound exact s e entered setup) :
    ∃ s', s.shellDeleteHandler = some s' ∧ Sound exact s' e.deleteAt entered setup ∧
      s'.outside = s.outside := by
  have hcursor := h.cursorPos
  have hcount := h.charCnt
  have hle := e.cursor_le
  rw [shellDeleteHandler]
  split
  · exact ⟨s, rfl, h.same (LineEditor.deleteAt_end (by omega))⟩
  · obtain ⟨pre, post, htext, hpre⟩ := e.exists_split
    have hlen : e.text.length = pre.length + post.length := by rw [htext, List.length_append]
    obtain ⟨x, mid, rfl⟩ : ∃ x mid, post = x :: mid :=
      List.exists_cons_of_length_pos (by omega)
    have hbuf : s.shellResetAutocomplete.shellResetHistoryScrolling.buf.Holds (pre ++ x :: mid) :=
      htext ▸ h.holds (by simp [htext])
    obtain ⟨buf, hremove, hbuf'⟩ := shellRemoveChar_spec hbuf
      (show s.cursorPos + 1 - 1 = (pre.length : Nat) by omega) (htext ▸ hcount) (show s.cursorPos ≤ s.charCnt by omega)
    obtain ⟨htext', hcursor'⟩ := LineEditor.deleteAt_eq htext hpre
    have h' : Sound exact { s with
        buf, charCnt := s.charCnt - 1, cursorPos := s.cursorPos - 1 + 1, showHistory := false,
        showAutocompl := false } e.deleteAt entered setup := by
      refine h.edited hbuf' (Or.inl htext') ?_ (by omega)
        (fun hmode => absurd hmode Bool.false_ne_true) fun hmode => absurd hmode Bool.false_ne_true
      rw [htext', List.length_append]
      rw [List.length_cons] at hlen
      omega
    rw [hremove]
    exact h'.refresh

theorem Sound.backspace (h : Sound exact s e entered setup) :
    ∃ s', s.shellBackspaceHandler = some s' ∧ Sound exact s' e.deleteBefore entered setup ∧
      s'.outside = s.outside := by
  have hcursor := h.cursorPos
  have hcount := h.charCnt
  have hle := e.cursor_le
  rw [shellBackspaceHandler]
  split
  · exact ⟨s, rfl, h.same (LineEditor.deleteBefore_start (by omega))⟩
  · obtain ⟨pre, mid, htext, hpre⟩ := e.exists_split
    obtain rfl | ⟨pre, x, rfl⟩ := List.eq_nil_or_concat pre
    · rw [List.length_nil] at hpre
      omega
    rw [List.concat_eq_append] at htext hpre
    rw [List.append_assoc, List.singleton_append] at htext
    rw [List.length_append, List.length_singleton] at hpre
    have hlen : e.text.length = pre.length + (mid.length + 1) := by
      rw [htext, List.length_append, List.length_cons]
    have hbuf : s.shellResetAutocomplete.shellResetHistoryScrolling.buf.Holds (pre ++ x :: mid) :=
      htext ▸ h.holds (by simp [htext])
    obtain ⟨buf, hremove, hbuf'⟩ := shellRemoveChar_spec hbuf
      (show s.cursorPos - 1 = (pre.length : Nat) by omega) (htext ▸ hcount) (show s.cursorPos ≤ s.charCnt by omega)
    obtain ⟨htext', hcursor'⟩ := LineEditor.deleteBefore_eq htext hpre
    have h' : Sound exact { s with
        buf, charCnt := s.charCnt - 1, cursorPos := s.cursorPos - 1, showHistory := false,
        showAutocompl := false } e.deleteBefore entered setup := by
      refine h.edited hbuf' (Or.inl htext') ?_ (by omega)
        (fun hmode => absurd hmode Bool.false_ne_true) fun hmode => absurd hmode Bool.false_ne_true
      rw [htext', List.length_append]
      omega
    rw [hremove]
    exact h'.refresh

theorem Sound.exists_split (h : Sound exact s e entered setup) : ∃ pre mid y post,
    e.text = pre ++ mid ∧ e.cursor = pre.length ∧ s.buf.bytes = pre ++ (mid ++ y :: post) ∧
      0#8 ∉ pre ++ mid := by
  obtain ⟨pre, mid, htext, hpre⟩ := e.exists_split
  obtain ⟨t, ⟨hnul, rest, hbytes⟩, rfl | ⟨-, hnil⟩⟩ := h.line
  · exact ⟨pre, mid, 0#8, rest, htext, hpre, by rw [hbytes, htext, List.append_assoc], htext ▸ hnul⟩
  · obtain ⟨y, post, hcons⟩ : ∃ y post, s.buf.bytes = y :: post :=
      List.exists_cons_of_length_pos (by rw [s.buf.size]; decide)
    obtain ⟨rfl, rfl⟩ := List.append_eq_nil_iff.mp (htext.symm.trans hnil)
    exact ⟨[], [], y, post, htext, hpre, hcons, by simp⟩

theorem Sound.default (h : Sound exact s e entered setup) (hc : c ≠ 0#8) :
    ∃ s', s.shellDefaultHandler c = some s' ∧ Sound exact s' (e.insert c) entered setup ∧
      s'.outside = (s.outside || typesAtStart e (.default c)) := by
  have hcursor := h.cursorPos
  have hcount := h.charCnt
  have hle := e.cursor_le
  have hcap := e.length_le
  have hmax : lineMax = 50 := rfl
  rw [shellDefaultHandler]
  split
  · next hfull =>
      have hlen : e.text.length = lineMax - 1 := by omega
      refine ⟨s, rfl, (h.same (LineEditor.insert_full (Nat.le_of_eq hlen.symm))).1, ?_⟩
      rw [typesAtStart, decide_eq_false (by omega), Bool.or_false]
  · next hroom =>
      have hlt : e.text.length < lineMax - 1 := by omega
      obtain ⟨pre, mid, y, post, htext, hpre, hbytes, hnul⟩ := h.exists_split
      have hlen : e.text.length = pre.length + mid.length := by rw [htext, List.length_append]
      have hbytes' : s.shellResetAutocomplete.shellResetHistoryScrolling.buf.bytes =
          pre ++ (mid ++ y :: post) := hbytes
      obtain ⟨buf, hinsert, hbuf⟩ := shellInsertChar_spec hbytes' hnul
        (show s.cursorPos = (pre.length : Nat) by omega)
        (show s.charCnt = ((pre ++ mid).length : Nat) by rw [← htext]; exact hcount)
        (htext ▸ hlt) hc
      obtain ⟨htext', hcursor'⟩ := LineEditor.insert_eq (c := c) htext hpre hlt
      have h' : Sound exact { s with
          buf, charCnt := s.charCnt + 1, cursorPos := s.cursorPos + 1, showHistory := false,
          showAutocompl := false, outside := s.outside || decide (pre = []) } (e.insert c) entered
          setup := by
        refine h.edited hbuf (Or.inl htext') ?_ (by omega)
          (fun hmode => absurd hmode Bool.false_ne_true) fun hmode => absurd hmode Bool.false_ne_true
        rw [htext', List.length_append, List.length_cons]
        omega
      rw [hinsert]
      obtain ⟨s', hs', hsound, houtside⟩ := h'.refresh
      refine ⟨s', hs', hsound, houtside.trans ?_⟩
      have hstart : e.cursor = 0 ∧ e.text.length < lineMax - 1 ↔ pre = [] := by
        rw [and_iff_left hlt, hpre, List.length_eq_zero_iff]
      simp only [typesAtStart, hstart]

/-! ### Tab -/

theorem Sound.showSuggestion {ws : List (List Byte)} (h : Sound exact s e entered setup)
    (hws : s.Completing ws) (hb : s.inputBackup.Holds b)
    (hw : (ws ++ [b])[s.autocomplCurr]? = some w) (hreach : e.cursor ≤ w.length) :
    ∃ s', s.showSuggestion = some s' ∧ Sound exact s' (e.substitute w) entered setup ∧
      s'.outside = s.outside := by
  obtain ⟨buf, hshow, hbuf⟩ := showSuggestion_spec h.prompt hb hws.count hws.filled hw
  have hlt := hbuf.length_lt
  obtain ⟨htext, hcursor⟩ := LineEditor.substitute_eq (e := e) (Nat.le_sub_one_of_lt hlt) hreach
  refine ⟨_, hshow, ?_, rfl⟩
  exact
    { line := ⟨w, hbuf, Or.inl htext⟩
      charCnt := congrArg (fun l => ((List.length l : Nat) : Int)) htext.symm
      cursorPos := h.cursorPos.trans (congrArg Nat.cast hcursor.symm)
      prompt := h.prompt
      shellCmds := h.shellCmds
      historyMaxCnt := h.historyMaxCnt
      saves := h.saves
      backup := fun _ => ⟨b, hb⟩
      room := h.room
      completing := fun hmode => by
        have hcurr := of_decide_eq_true (Bool.and_eq_true_iff.mp hmode).2
        exact ⟨ws, hws.count, hws.filled, Nat.lt_of_le_of_ne hws.le hcurr, hws.reach⟩
      history := h.remembers rfl rfl rfl rfl rfl fun hmode => hmode
      entered := h.entered }

theorem Sound.nextWord {entries : List LineBuf} {i j : Nat}
    (h : Sound exact s e entered setup) (hentries : s.autocompl = some entries)
    (hargv : s.argv0 = some (some (i, j)))
    (hmode : s.showAutocompl = true ∧ s.autocomplCursorPos = s.cursorPos)
    (hok : s.autocomplCurr = s.autocomplCnt →
      ∀ b, s.inputBackup.string = some b → s.cursorPos ≤ b.length) :
    ∃ ws b w, s.Completing ws ∧ s.inputBackup.Holds b ∧
      (ws ++ [b])[s.autocomplCurr]? = some w ∧ s.completed = some w ∧ e.cursor ≤ w.length := by
  have hcursor := h.cursorPos
  obtain ⟨ws, hws⟩ := h.completing hmode.1
  obtain ⟨b, hb⟩ := h.backup (Or.inr hmode.1)
  have hwsle := hws.le
  obtain ⟨w, hw⟩ : ∃ w, (ws ++ [b])[s.autocomplCurr]? = some w :=
    ⟨_, List.getElem?_eq_getElem (by rw [List.length_append, List.length_singleton]; omega)⟩
  refine ⟨ws, b, w, hws, hb, hw, ?_⟩
  rw [completed, hentries, hargv]
  change (if _ then _ else _) = _ ∧ _
  rw [if_pos hmode, hws.count]
  by_cases hlast : s.autocomplCurr = ws.length
  · rw [hlast, List.getElem?_append_right (Nat.le_refl _), Nat.sub_self] at hw
    obtain rfl := Option.some.inj hw
    have hreach := hok (hlast.trans hws.count.symm) b hb.string
    rw [if_pos hlast]
    exact ⟨hb.string, by omega⟩
  · rw [List.getElem?_append_left (by omega)] at hw
    obtain ⟨a, ha, hholds⟩ := hws.filled _ _ hw
    rw [hentries, Option.getD_some] at ha
    have hreach := hws.reach w (List.mem_of_getElem? hw)
    rw [if_neg hlast, ha]
    exact ⟨hholds.string, by omega⟩

theorem Sound.beginWords {entries : List LineBuf} {i j : Nat}
    (h : Sound exact s e entered setup) (hentries : s.autocompl = some entries)
    (hargv : s.argv0 = some (some (i, j)))
    (hmode : ¬ (s.showAutocompl = true ∧ s.autocomplCursorPos = s.cursorPos))
    (hbuf : s.buf.Holds t) (hi : i ≤ e.cursor) (hk : e.cursor ≤ j) (hj : j ≤ t.length)
    (hfits : ∀ w ∈ completions s.buf.bytes t i s.cursorPos.toNat s.cmds, w.length < lineMax) :
    ∃ s' ws w, s.beginAutocomplete entries i j = some s' ∧ Sound exact s' e entered setup ∧
      s'.outside = s.outside ∧ s'.Completing ws ∧ s'.inputBackup.Holds t ∧
      (ws ++ [t])[s'.autocomplCurr]? = some w ∧ s.completed = some w ∧ e.cursor ≤ w.length := by
  have hcursor := h.cursorPos
  have hcursor' : s.cursorPos.toNat = e.cursor := by rw [hcursor, Int.toNat_natCast]
  rw [hcursor'] at hfits
  obtain ⟨entries', hbegin, hlen, hfilled⟩ := beginAutocomplete_spec hbuf hcursor hi hk hj
    (h.room entries hentries) hfits
  have hreach : ∀ w ∈ completions s.buf.bytes t i e.cursor s.cmds,
      s.cursorPos ≤ w.length := fun w hw => by
    have hw := completions_length hbuf hi (by omega) hw
    omega
  generalize hws : completions s.buf.bytes t i e.cursor s.cmds = ws at hbegin hfilled hreach
  have hshown : s.completed = some (ws.headD t) := by
    rw [completed, hentries, hargv]
    change (if _ then _ else _) = _
    rw [if_neg hmode, hbuf.string, hcursor', Option.bind_eq_bind, Option.bind_some, hws]
  have hfirst : (ws ++ [t])[0]? = some (ws.headD t) ∧ e.cursor ≤ (ws.headD t).length := by
    cases ws with
    | nil => exact ⟨rfl, by rw [List.headD_nil]; omega⟩
    | cons w ws =>
        have hw := hreach w List.mem_cons_self
        exact ⟨rfl, by rw [List.headD_cons]; omega⟩
  refine ⟨_, ws, _, hbegin, ?_, rfl, ⟨rfl, hfilled, Nat.zero_le _, hreach⟩, hbuf.copy, hfirst.1,
    hshown, hfirst.2⟩
  exact
    { line := h.line
      charCnt := h.charCnt
      cursorPos := hcursor
      prompt := h.prompt
      shellCmds := h.shellCmds
      historyMaxCnt := h.historyMaxCnt
      saves := h.saves
      backup := fun _ => ⟨t, hbuf.copy⟩
      room := fun es hes => by
        obtain rfl := Option.some.inj hes
        exact hlen ▸ h.room entries hentries
      completing := fun _ => ⟨ws, rfl, hfilled, Nat.zero_le _, hreach⟩
      history := h.remembers rfl rfl rfl rfl rfl fun hmode => hmode
      entered := h.entered }

theorem Sound.tab (h : Sound exact s e entered setup) (hok : s.TabOk) :
    ∃ s', s.shellAutocomplete = some s' ∧ Sound exact s' (e.apply (s.edit .tab)) entered setup ∧
      s'.outside = s.outside := by
  have hle := e.cursor_le
  rw [shellAutocomplete]
  cases hentries : s.autocompl with
  | none =>
      have hnone : s.completed = none := by rw [completed, hentries]; rfl
      refine ⟨s, rfl, h.same ?_⟩
      rw [edit, hnone]
      rfl
  | some entries =>
      obtain ⟨t, hbuf, htext⟩ := h.line
      have hn : e.text.length ≤ t.length := by
        obtain htext | ⟨-, htext⟩ := htext
        · rw [htext]
        · simp [htext]
      obtain ⟨o, hargv, hbound⟩ := argv0_spec hbuf h.charCnt hn h.cursorPos
      dsimp only
      rw [hargv, Option.bind_eq_bind, Option.bind_some]
      cases o with
      | none =>
          have hnone : s.completed = none := by rw [completed, hentries, hargv]; rfl
          refine ⟨s, rfl, h.same ?_⟩
          rw [edit, hnone]
          rfl
      | some ij =>
          obtain ⟨i, j⟩ := ij
          obtain ⟨hi, hk, hj⟩ := hbound i j rfl
          have hok := hok (by rw [hentries]; simp) i j hargv
          dsimp only
          by_cases hmode : s.showAutocompl = true ∧ s.autocomplCursorPos = s.cursorPos
          · rw [if_pos hmode] at hok ⊢
            obtain ⟨ws, b, w, hws, hb, hw, hshown, hreach⟩ := h.nextWord hentries hargv hmode hok
            rw [edit, hshown]
            exact h.showSuggestion hws hb hw hreach
          · rw [if_neg hmode] at hok ⊢
            obtain ⟨s', ws, w, hbegin, hsound, houtside, hws, hb, hw, hshown, hreach⟩ :=
              h.beginWords hentries hargv hmode hbuf hi hk (by omega) (hok t hbuf.string)
            rw [hbegin, edit, hshown, ← houtside]
            exact hsound.showSuggestion hws hb hw hreach

/-! ### The arrow keys -/

theorem recalled_eq {hs : List LineBuf} {l : List Nat} {lines : List (List Byte)} {p : Nat}
    {node : HistoryNode} (h : HistoryList s.historyLinks s.historyCnt s.historyMaxCnt hs l lines)
    (hpos : AtPosition l p node) (hsaved : s.Saved b) (hw : (b :: lines.reverse)[p]? = some w) :
    s.recalled hs node = some w := by
  cases p with
  | zero =>
      obtain rfl := Option.some.inj hw
      rw [hpos.zero, recalled]
      by_cases hmode : s.showHistory = true
      · rw [Saved, if_pos hmode] at hsaved
        rw [if_pos hmode, hsaved.string]
      · rw [Saved, if_neg hmode] at hsaved
        rw [if_neg hmode, hsaved.string]
  | succ p =>
      obtain ⟨i, a, w', rfl, ha, hholds, hline⟩ := h.slot_at hpos
      obtain rfl := Option.some.inj (hline.symm.trans hw)
      rw [recalled, ha]
      exact hholds.string

theorem Sound.replaced {hs : List LineBuf} {l : List Nat} {p q : Nat} {inputBackup : LineBuf}
    {node : HistoryNode} (h : Sound exact s e entered setup) (hhistory : s.history = some hs)
    (hl : s.Remembers hs entered l q) (hne : l ≠ []) (hpos : AtPosition l p node)
    (hb : inputBackup.Holds b) (hbuf : buf.Holds w) :
    Sound exact { s with
      inputBackup, buf, charCnt := w.length, cursorPos := w.length, historyCurr := node,
      showHistory := decide (p ≠ 0), terminal } (LineEditor.replace w) entered setup := by
  obtain ⟨htext, hcursor⟩ : (LineEditor.replace w : ShellEditor).text = w ∧
      (LineEditor.replace w : ShellEditor).cursor = w.length :=
    LineEditor.replace_eq (Nat.le_sub_one_of_lt hbuf.length_lt)
  exact
    { line := ⟨w, hbuf, Or.inl htext⟩
      charCnt := by rw [htext]
      cursorPos := by rw [hcursor]
      prompt := h.prompt
      shellCmds := h.shellCmds
      historyMaxCnt := h.historyMaxCnt
      saves := h.saves
      backup := fun _ => ⟨b, hb⟩
      room := h.room
      completing := fun hmode =>
        (h.completing hmode).imp fun _ hws =>
        ⟨hws.count, hws.filled, hws.le, hws.reach⟩
      history := fun hs' hhs' => by
        obtain rfl := Option.some.inj (hhistory.symm.trans hhs')
        exact ⟨l, p, hl.capacity, hl.list, fun _ => hpos, fun hmode =>
          ⟨hne, Nat.pos_of_ne_zero (of_decide_eq_true hmode)⟩⟩
      entered := h.entered }

theorem Sound.up (h : Sound exact s e entered setup) :
    ∃ s', s.shellUpArrowHandler = some s' ∧ Sound exact s' (e.apply (s.edit .up)) entered setup ∧
      s'.outside = s.outside := by
  cases hhistory : s.history with
  | none =>
      have hnone : s.recalledUp = none := by rw [recalledUp, hhistory]; rfl
      refine ⟨s, by rw [shellUpArrowHandler, hhistory], h.same ?_⟩
      rw [edit, hnone]
      rfl
  | some hs =>
      obtain ⟨l, p, hl⟩ := h.history hs hhistory
      have hempty : listEmpty s.historyLinks HistoryNode.head = true ↔ l = [] := by
        rw [listEmpty_iff hl.list.ring, List.map_eq_nil_iff]
      by_cases hne : l = []
      · have hnone : s.recalledUp = none := by
          rw [recalledUp, hhistory, Option.bind_eq_bind, Option.bind_some, if_pos (hempty.mpr hne)]
        refine ⟨s, ?_, h.same ?_⟩
        · rw [shellUpArrowHandler, hhistory]
          exact if_pos (hempty.mpr hne)
        · rw [edit, hnone]
          rfl
      · obtain ⟨t, hbuf, -⟩ := h.line
        obtain ⟨b, hsaved⟩ : ∃ b, s.Saved b := by
          by_cases hmode : s.showHistory = true
          · obtain ⟨b, hb⟩ := h.backup (Or.inl hmode)
            exact ⟨b, by rwa [Saved, if_pos hmode]⟩
          · exact ⟨t, by rwa [Saved, if_neg hmode]⟩
        have hpos := hl.curr hne
        obtain ⟨inputBackup, buf, w, hup, hb, hbuf', hw⟩ :=
          shellUpArrowHandler_spec hhistory hl.list hne hpos hsaved h.prompt
        have hrecalled : s.recalledUp = some w := by
          rw [recalledUp, hhistory, Option.bind_eq_bind, Option.bind_some,
            if_neg fun he => hne (hempty.mp he)]
          exact recalled_eq hl.list (hpos.prev hl.list.ring) hsaved hw
        rw [edit, hrecalled]
        exact ⟨_, hup, h.replaced hhistory hl hne (hpos.prev hl.list.ring) hb hbuf', rfl⟩

theorem Sound.down (h : Sound exact s e entered setup) :
    ∃ s', s.shellDownArrowHandler = some s' ∧
      Sound exact s' (e.apply (s.edit .down)) entered setup ∧ s'.outside = s.outside := by
  cases hhistory : s.history with
  | none =>
      have hnone : s.recalledDown = none := by rw [recalledDown, hhistory]; rfl
      refine ⟨s, by rw [shellDownArrowHandler, hhistory], h.same ?_⟩
      rw [edit, hnone]
      rfl
  | some hs =>
      obtain ⟨l, p, hl⟩ := h.history hs hhistory
      by_cases hmode : s.showHistory = true
      · obtain ⟨hne, hp⟩ := hl.scrolling hmode
        obtain ⟨q, rfl⟩ := Nat.exists_eq_succ_of_ne_zero hp.ne'
        obtain ⟨b, hb⟩ := h.backup (Or.inl hmode)
        have hpos := hl.curr hne
        obtain ⟨buf, w, hdown, hbuf', hw⟩ :=
          shellDownArrowHandler_spec hhistory hl.list hmode hpos hb h.prompt
        have hsaved : s.Saved b := by rwa [Saved, if_pos hmode]
        have hrecalled : s.recalledDown = some w := by
          rw [recalledDown, hhistory, Option.bind_eq_bind, Option.bind_some, if_pos hmode]
          exact recalled_eq hl.list (hpos.next hl.list.ring) hsaved hw
        rw [edit, hrecalled]
        exact ⟨_, hdown, h.replaced hhistory hl hne (hpos.next hl.list.ring) hb hbuf', rfl⟩
      · have hnone : s.recalledDown = none := by
          rw [recalledDown, hhistory, Option.bind_eq_bind, Option.bind_some, if_neg hmode]
        refine ⟨s, ?_, h.same ?_⟩
        · rw [shellDownArrowHandler, hhistory]
          exact if_neg hmode
        · rw [edit, hnone]
          rfl

/-! ### Enter -/

theorem shellExecute_spec {cmds : List ShellCmd} (hcmds : s.shellCmds = some cmds)
    (hbuf : s.buf.Holds t) : ∃ buf, s.shellExecute = some { s with
      buf, cursorPos := 0, charCnt := 0 } ∧ buf.Holds [] := by
  have hlt := hbuf.length_lt
  obtain ⟨tokens, htokens, -⟩ := shellSplitCmdToken_spec hbuf.noNul
  have hlen := shellSplitCmdToken_length htokens
  rw [List.length_append, List.length_singleton] at hlen
  obtain ⟨a, ha⟩ : ∃ a, s.buf.overwrite tokens.cmd = some a := ⟨_, dif_pos (by omega)⟩
  obtain ⟨buf, hwrite, hholds⟩ := a.write_zero
  refine ⟨buf, ?_, hholds⟩
  simp only [shellExecute, hcmds, hbuf.string, htokens, ha, hwrite, Option.bind_eq_bind,
    Option.bind_some, shellResetLine]

theorem Sound.pushed (h : Sound exact s e entered setup) (hbuf : s.buf.Holds t) (hne : t ≠ []) :
    ∃ s', s.shellResetLine.shellPushNewHistory = some s' ∧
      Sound false s' LineEditor.empty (entered ++ [t]) setup ∧ s'.buf = s.buf ∧
      s'.shellCmds = s.shellCmds ∧ s'.outside = s.outside ∧
      (s.showHistory = false → s'.showHistory = false) ∧
      (s.history ≠ none → s'.historyCurr = .head) := by
  have hentered : ∀ w ∈ entered ++ [t], w ≠ [] := fun w hw => by
    rcases List.mem_append.mp hw with hw | hw
    · exact h.entered w hw
    · rwa [List.mem_singleton.mp hw]
  cases hhistory : s.history with
  | none =>
      refine ⟨s.shellResetLine, ?_, ?_, rfl, rfl, rfl, fun hmode => hmode, fun hsome =>
        absurd rfl hsome⟩
      · have hnone : s.shellResetLine.history = none := hhistory
        rw [shellPushNewHistory, hnone]
      · exact
          { line := ⟨t, hbuf, Or.inr ⟨rfl, rfl⟩⟩
            charCnt := rfl
            cursorPos := rfl
            prompt := h.prompt
            shellCmds := h.shellCmds
            historyMaxCnt := h.historyMaxCnt
            saves := h.saves
            backup := h.backup
            room := h.room
            completing := fun hmode =>
              (h.completing hmode).imp fun _ hws =>
              ⟨hws.count, hws.filled, hws.le, hws.reach⟩
            history := fun hs hhs => by cases hhistory.symm.trans hhs
            entered := hentered }
  | some hs =>
      obtain ⟨l, p, hl⟩ := h.history hs hhistory
      have hhistory' : s.shellResetLine.history = some hs := hhistory
      obtain ⟨hs', links, cnt, l', hpush, hlist⟩ :=
        shellPushNewHistory_spec hhistory' hl.list hl.capacity hbuf
      have hlist : HistoryList links cnt s.historyMaxCnt hs' l'
          ((entered ++ [t]).rtake s.historyMaxCnt) :=
        rtake_rtake_append entered t s.historyMaxCnt ▸ hlist
      refine ⟨_, hpush, ?_, rfl, rfl, rfl, fun _ => rfl, fun _ => rfl⟩
      exact
        { line := ⟨t, hbuf, Or.inr ⟨rfl, rfl⟩⟩
          charCnt := rfl
          cursorPos := rfl
          prompt := h.prompt
          shellCmds := h.shellCmds
          historyMaxCnt := h.historyMaxCnt
          saves := (congrArg Option.isSome hhistory).symm.trans h.saves
          backup := fun hmode =>
            h.backup (Or.inr (hmode.resolve_left fun hshow => Bool.false_ne_true hshow))
          room := h.room
          completing := fun hmode =>
            (h.completing hmode).imp fun _ hws =>
            ⟨hws.count, hws.filled, hws.le, hws.reach⟩
          history := fun hs'' hhs => by
            obtain rfl := Option.some.inj hhs
            exact ⟨l', 0, hl.capacity, hlist, fun _ => atPosition_head l', fun hshow =>
              absurd hshow Bool.false_ne_true⟩
          entered := hentered }

structure FreshLine (s : Shell) : Prop where
  charCnt : s.charCnt = 0
  cursorPos : s.cursorPos = 0
  showHistory : s.showHistory = false
  shown : s.prompt.string = some s.terminal.text

/-- The history is at the input of the user, and that is empty. -/
def AtInput (s : Shell) : Prop := s.historyCurr = .head ∧ s.buf.string = some []

theorem Sound.reset (h : Sound exact s e entered setup) :
    Sound exact s.shellResetHistoryScrolling.shellResetAutocomplete e entered setup := by
  obtain ⟨t, hbuf, hline⟩ := h.line
  exact h.edited hbuf hline h.charCnt h.cursorPos (fun hmode => absurd hmode Bool.false_ne_true)
    fun hmode => absurd hmode Bool.false_ne_true

theorem Sound.enterLine (h : Sound exact s e entered setup) (hne : e.text ≠ [])
    (hok : exact = true → s.shellCmds ≠ none) : ∃ s', s.shellEnterHandler = some s' ∧
      Sound exact s' LineEditor.empty (entered ++ [e.text]) setup ∧ s'.outside = s.outside ∧
      (s.shellCmds ≠ none → s.history ≠ none → s'.FreshLine ∧ s'.AtInput) := by
  have hpos : 0 < s.shellResetHistoryScrolling.shellResetAutocomplete.charCnt := by
    rw [h.reset.charCnt]
    exact Int.natCast_pos.mpr (List.length_pos_iff.mpr hne)
  obtain ⟨s₁, hpush, h₁, hbuf₁, hcmds₁, houtside₁, hmode₁, hcurr₁⟩ :=
    h.reset.pushed (h.holds hne) hne
  rw [shellEnterHandler, if_pos hpos, hpush, Option.bind_eq_bind, Option.bind_some]
  cases hcmds : s₁.shellCmds with
  | none =>
      have hnone : s.shellCmds = none := hcmds₁.symm.trans hcmds
      have hexact : exact = false := by
        cases exact with
        | false => rfl
        | true => exact absurd hnone (hok rfl)
      have hexec : s₁.shellExecute = some s₁ := by rw [shellExecute, hcmds]
      obtain ⟨t₁, hholds₁, hline₁⟩ := h₁.line
      rw [hexec, Option.bind_some, putPrompt_eq h₁.prompt]
      exact ⟨_, rfl, hexact ▸ h₁.edited hholds₁ hline₁ h₁.charCnt h₁.cursorPos (fun hmode => hmode)
        (fun hmode => hmode), houtside₁, fun hsome => absurd hnone hsome⟩
  | some cmds =>
      obtain ⟨buf, hexec, hempty⟩ := shellExecute_spec hcmds (hbuf₁ ▸ h.holds hne)
      have h₂ : Sound exact { s₁ with
          buf, cursorPos := 0, charCnt := 0, terminal := ⟨setup.prompt, setup.prompt.length⟩ }
          LineEditor.empty (entered ++ [e.text]) setup :=
        h₁.edited hempty (Or.inl rfl) rfl rfl (fun hmode => hmode) fun hmode => hmode
      have hprompt : ({ s₁ with buf, cursorPos := 0, charCnt := 0 } : Shell).prompt.Holds
          setup.prompt := h₁.prompt
      rw [hexec, Option.bind_some, putPrompt_eq hprompt]
      refine ⟨_, rfl, h₂, houtside₁, fun _ hsome => ⟨?_, hcurr₁ hsome, hempty.string⟩⟩
      exact ⟨rfl, rfl, hmode₁ rfl, hprompt.string⟩

theorem Sound.enter (h : Sound exact s e entered setup)
    (hok : exact = true → e.text = [] ∨ s.shellCmds ≠ none) :
    ∃ s', s.shellEnterHandler = some s' ∧
      Sound exact s' LineEditor.empty (if e.text ≠ [] then entered ++ [e.text] else entered) setup ∧
      s'.outside = s.outside := by
  by_cases hnil : e.text = []
  · have hreset := h.reset
    obtain ⟨t, hbuf, hline⟩ := hreset.line
    have hempty : Sound exact { s.shellResetHistoryScrolling.shellResetAutocomplete with
        terminal := ⟨setup.prompt, setup.prompt.length⟩ } LineEditor.empty entered setup := by
      refine hreset.edited hbuf ?_ ?_ ?_ (fun hmode => hmode) fun hmode => hmode
      · exact hline.imp hnil.symm.trans fun hexact => ⟨hexact.1, rfl⟩
      · exact h.charCnt.trans (congrArg (fun l => ((List.length l : Nat) : Int)) hnil)
      · have hle := e.cursor_le
        rw [hnil, List.length_nil, Nat.le_zero] at hle
        exact h.cursorPos.trans (congrArg Nat.cast hle)
    rw [shellEnterHandler, if_neg (by rw [hreset.charCnt, hnil]; decide),
      if_neg (not_not.mpr hnil), putPrompt_eq hreset.prompt]
    exact ⟨_, rfl, hempty, rfl⟩
  · rw [if_pos hnil]
    obtain ⟨s', hs', hsound, houtside, -⟩ :=
      h.enterLine hnil fun hexact => (hok hexact).resolve_left hnil
    exact ⟨s', hs', hsound, houtside⟩

/-! ### Every key -/

theorem Sound.press {key : ShellKey} (h : Sound exact s e entered setup)
    (hkey : ∀ c, key = .default c → c ≠ 0#8) (htab : key = .tab → s.TabOk)
    (hexact : exact = true → KeepsExact s e key) :
    ∃ s', s.press key = some s' ∧
      Sound exact s' (e.apply (s.edit key))
        (if key = .enter ∧ e.text ≠ [] then entered ++ [e.text] else entered) setup ∧
      s'.outside = (s.outside || typesAtStart e key) := by
  have hother : ∀ {s' : Shell} {e' : ShellEditor}, key ≠ .enter → typesAtStart e key = false →
      Sound exact s' e' entered setup ∧ s'.outside = s.outside →
      Sound exact s' e' (if key = .enter ∧ e.text ≠ [] then entered ++ [e.text] else entered) setup ∧
        s'.outside = (s.outside || typesAtStart e key) := by
    intro s' e' hne hstart h'
    rw [if_neg fun hk => hne hk.1, hstart, Bool.or_false]
    exact h'
  cases key with
  | none => exact ⟨s, rfl, hother (by simp) rfl (h.same rfl)⟩
  | ctrlA => exact h.home.imp fun s' h' => ⟨h'.1, hother (by simp) rfl h'.2⟩
  | home => exact h.home.imp fun s' h' => ⟨h'.1, hother (by simp) rfl h'.2⟩
  | left => exact h.left.imp fun s' h' => ⟨h'.1, hother (by simp) rfl h'.2⟩
  | right => exact h.right.imp fun s' h' => ⟨h'.1, hother (by simp) rfl h'.2⟩
  | ctrlE => exact h.toEnd.imp fun s' h' => ⟨h'.1, hother (by simp) rfl h'.2⟩
  | toEnd => exact h.toEnd.imp fun s' h' => ⟨h'.1, hother (by simp) rfl h'.2⟩
  | ctrlC => exact (h.ctrlC hexact).imp fun s' h' => ⟨h'.1, hother (by simp) rfl h'.2⟩
  | ctrlU => exact h.ctrlU.imp fun s' h' => ⟨h'.1, hother (by simp) rfl h'.2⟩
  | tab => exact (h.tab (htab rfl)).imp fun s' h' => ⟨h'.1, hother (by simp) rfl h'.2⟩
  | up => exact h.up.imp fun s' h' => ⟨h'.1, hother (by simp) rfl h'.2⟩
  | down => exact h.down.imp fun s' h' => ⟨h'.1, hother (by simp) rfl h'.2⟩
  | delete => exact h.delete.imp fun s' h' => ⟨h'.1, hother (by simp) rfl h'.2⟩
  | backspace => exact h.backspace.imp fun s' h' => ⟨h'.1, hother (by simp) rfl h'.2⟩
  | enter =>
      obtain ⟨s', hs', hsound, houtside⟩ := h.enter hexact
      refine ⟨s', hs', ?_, houtside.trans (Bool.or_false _).symm⟩
      simp only [true_and]
      exact hsound
  | default c =>
      obtain ⟨s', hs', hsound, houtside⟩ := h.default (hkey c rfl)
      refine ⟨s', hs', ?_, houtside⟩
      rw [if_neg (by simp)]
      exact hsound

end Shell

theorem ShellInput.next_default {i : ShellInput} {b c : Byte} (h : (i.next b).2 = .default c) :
    c ≠ 0#8 := by
  have hkey : ∀ b, (ShellInput.onKey b).2 = .default c → c = b := by
    intro b hb
    rw [ShellInput.onKey] at hb
    split at hb <;> cases hb
    rfl
  have hseq : ∀ b, (ShellInput.onSeq b).2 ≠ .default c := by
    intro b hb
    rw [ShellInput.onSeq] at hb
    split at hb <;> cases hb
  cases i with
  | key =>
      rintro rfl
      obtain rfl := hkey b h
      cases h
  | seq0 => cases h
  | seq1 first =>
      rw [next] at h
      split at h
      · exact absurd h (hseq b)
      · cases h
  | skip => cases h
  | seq2 =>
      rw [next] at h
      split at h <;> cases h

end Tenok
