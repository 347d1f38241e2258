import Tenok.User.ShellSession

/-!
Runs of the shell from `shell_init` on: the line of the user, and the lines that the arrow keys show.
-/
namespace Tenok
open Ring

/-! ### The start -/

theorem LineBuf.holds_of_strlen {a : LineBuf} {n : Nat} (h : a.strlen = some n) : ∃ t, a.Holds t := by
  obtain ⟨hn, hzero, hbefore⟩ := List.findIdx?_eq_some_iff_getElem.mp h
  refine ⟨a.bytes.take n, fun hmem => ?_, a.bytes.drop (n + 1), ?_⟩
  · obtain ⟨i, hi, hget⟩ := List.mem_iff_getElem.mp hmem
    rw [List.length_take] at hi
    rw [List.getElem_take] at hget
    exact hbefore i (by omega) (decide_eq_true hget)
  · rw [← of_decide_eq_true hzero, List.getElem_cons_drop, List.take_append_drop]

namespace Shell
variable {s₀ s : Shell} {shellCmds : Option (List ShellCmd)} {history autocompl : Option (List LineBuf)}
  {historyMaxCnt n : Nat} {newPrompt : List Byte} {entries entries' : List LineBuf}

theorem clearEntries_length (h : clearEntries n entries = some entries') : n ≤ entries'.length := by
  induction n generalizing entries entries' with
  | zero => exact Nat.zero_le _
  | succ n ih =>
      cases entries with
      | nil => cases h
      | cons entry entries =>
          simp only [clearEntries, Option.bind_eq_bind, Option.bind_eq_some_iff,
            Option.some.injEq] at h
          obtain ⟨entry', -, rest, hrest, rfl⟩ := h
          exact Nat.succ_le_succ (ih hrest)

theorem initAutocompl_length {o : Option (List LineBuf)}
    (h : initAutocompl n autocompl = some o) : ∀ es, o = some es → n ≤ es.length := by
  rintro es rfl
  cases autocompl with
  | none =>
      rw [initAutocompl] at h
      split at h <;> cases h
  | some entries =>
      obtain ⟨es', hclear, hes⟩ := Option.map_eq_some_iff.mp h
      obtain rfl := Option.some.inj hes
      exact clearEntries_length hclear

theorem start_sound
    (hstart : s₀.start shellCmds history historyMaxCnt autocompl newPrompt = some s)
    (hhistory : ∀ hs, history = some hs → hs.length = historyMaxCnt ∧ 1 ≤ historyMaxCnt) :
    ∃ prompt, Sound true s LineEditor.empty [] ⟨shellCmds, historyMaxCnt, history.isSome, prompt⟩ ∧
      s.outside = false := by
  obtain ⟨s₁, hinit, hstart⟩ := Option.bind_eq_some_iff.mp hstart
  obtain ⟨s₂, hset, hput⟩ := Option.bind_eq_some_iff.mp hstart
  simp only [shellInit, Option.bind_eq_bind, Option.bind_eq_some_iff, Option.some.injEq] at hinit
  obtain ⟨p₀, -, buf, hbuf, entries, hentries, rfl⟩ := hinit
  simp only [shellSetPrompt, Option.bind_eq_bind, Option.bind_eq_some_iff, Option.some.injEq] at hset
  obtain ⟨p, -, len, hlen, rfl⟩ := hset
  simp only [putPrompt, Option.bind_eq_bind, Option.bind_eq_some_iff, Option.some.injEq] at hput
  obtain ⟨text, -, rfl⟩ := hput
  obtain ⟨prompt, hprompt⟩ := LineBuf.holds_of_strlen hlen
  have hlist : ∀ hs : List LineBuf, hs.length = historyMaxCnt →
      HistoryList (initListHead s₀.historyLinks HistoryNode.head) 0 historyMaxCnt hs []
        (([] : List (List Byte)).rtake historyMaxCnt) := by
    intro hs hsize
    rw [List.rtake_nil]
    exact HistoryList.init s₀.historyLinks hs hsize
  obtain ⟨buf', hbuf', hempty⟩ := s₀.buf.write_zero
  obtain rfl := Option.some.inj (hbuf'.symm.trans hbuf)
  exact ⟨prompt,
    { line := ⟨[], hempty, Or.inl rfl⟩
      charCnt := rfl
      cursorPos := rfl
      prompt := hprompt
      shellCmds := rfl
      historyMaxCnt := rfl
      saves := rfl
      backup := fun hmode => by cases hmode <;> contradiction
      room := initAutocompl_length hentries
      completing := fun hmode => absurd hmode Bool.false_ne_true
      history := fun hs hhs =>
        ⟨[], 0, (hhistory hs hhs).2, hlist hs (hhistory hs hhs).1, fun hne => absurd rfl hne,
          fun hmode => absurd hmode Bool.false_ne_true⟩
      entered := fun w hw => by cases hw }, rfl⟩

end Shell

/-! ### The line editor -/

namespace ShellSession
variable {x y : ShellSession} {setup : ShellSetup} {exact : Bool} {c : Byte}

def init (s : Shell) : ShellSession := ⟨s, .key, LineEditor.empty, []⟩

/-- A Tab that is pressed has room for what it shows. -/
def TabOk (x : ShellSession) (c : Byte) : Prop := x.key c = .tab → x.shell.TabOk

/-- The line is not dropped without being cleared in `buf`. -/
def EditOk (x : ShellSession) (c : Byte) : Prop :=
  x.TabOk c ∧ x.shell.KeepsExact x.editor (x.key c)

instance decidableEditOk (x : ShellSession) (c : Byte) : Decidable (x.EditOk c) :=
  inferInstanceAs (Decidable ((_ → Shell.TabOk _) ∧ Shell.KeepsExact _ _ _))

def TypesAtStart (x : ShellSession) (c : Byte) : Prop :=
  Shell.typesAtStart x.editor (x.key c) = true

def Sound (exact : Bool) (setup : ShellSetup) (x : ShellSession) : Prop :=
  Shell.Sound exact x.shell x.editor x.entered setup

theorem Sound.step (h : x.Sound exact setup) (htab : x.TabOk c)
    (hexact : exact = true → x.shell.KeepsExact x.editor (x.key c)) :
    ∃ y, x.step c = some y ∧ y.Sound exact setup ∧
      y.shell.outside = (x.shell.outside || Shell.typesAtStart x.editor (x.key c)) := by
  have hchar : ∀ b, x.key c = .default b → b ≠ 0#8 := fun b hb => ShellInput.next_default hb
  obtain ⟨s', hpress, hsound, houtside⟩ := Shell.Sound.press h hchar htab hexact
  refine ⟨⟨s', (x.input.next c).1, _, _⟩, ?_, hsound, houtside⟩
  rw [ShellSession.step, hpress]
  rfl

theorem Sound.shows (h : x.Sound true setup) :
    0 ≤ x.shell.cursorPos ∧ x.shell.cursorPos ≤ x.shell.charCnt ∧
      x.shell.charCnt ≤ (lineMax - 1 : Nat) ∧
      x.shell.buf.strlen.map Nat.cast = some x.shell.charCnt ∧
      x.shell.buf.string = some x.editor.text ∧ x.shell.cursorPos = x.editor.cursor := by
  have hcursor := h.cursorPos
  have hcount := h.charCnt
  have hle := x.editor.cursor_le
  have hcap := x.editor.length_le
  obtain ⟨t, hbuf, rfl | ⟨hexact, -⟩⟩ := h.line
  · refine ⟨by omega, by omega, by omega, ?_, hbuf.string, hcursor⟩
    rw [hbuf.strlen, hcount, Option.map_some]
  · cases hexact

/-- While no line is dropped and no Tab shows what has no room, the line in `buf` is the one of the user.
Then only a character that is typed at the start of the line makes the shell leave its arrays. -/
theorem shellLine_of_editOk {s₀ s : Shell} {shellCmds : Option (List ShellCmd)}
    {history autocompl : Option (List LineBuf)} {historyMaxCnt : Nat} {newPrompt : List Byte}
    (hstart : s₀.start shellCmds history historyMaxCnt autocompl newPrompt = some s)
    (hhistory : ∀ hs, history = some hs → hs.length = historyMaxCnt ∧ 1 ≤ historyMaxCnt)
    {bytes : List Byte} (hok : Runs.AllOk EditOk step (init s) bytes) :
    (∃ x, Runs.exec step (init s) bytes = some x ∧
      0 ≤ x.shell.cursorPos ∧ x.shell.cursorPos ≤ x.shell.charCnt ∧
      x.shell.charCnt ≤ (lineMax - 1 : Nat) ∧
      x.shell.buf.strlen.map Nat.cast = some x.shell.charCnt ∧
      x.shell.buf.string = some x.editor.text ∧ x.shell.cursorPos = x.editor.cursor) ∧
    (Runs.AllOk (fun x c => ¬x.TypesAtStart c) step (init s) bytes ↔
      ∀ n x, Runs.exec step (init s) (bytes.take n) = some x → x.shell.outside = false) := by
  obtain ⟨prompt, hsound, houtside⟩ := Shell.start_sound hstart hhistory
  generalize (⟨shellCmds, historyMaxCnt, history.isSome, prompt⟩ : ShellSetup) = setup at hsound
  have hstep : ∀ x c, Sound true setup x → x.EditOk c → ∃ y, x.step c = some y ∧ Sound true setup y ∧
      y.shell.outside = (x.shell.outside || Shell.typesAtStart x.editor (x.key c)) :=
    fun x c hx hc => hx.step hc.1 fun _ => hc.2
  have hkeeps : ∀ x c, Sound true setup x → x.EditOk c → ∃ y, x.step c = some y ∧
      Sound true setup y := fun x c hx hc =>
    (hstep x c hx hc).imp fun y hy => ⟨hy.1, hy.2.1⟩
  obtain ⟨x, hrun, hx⟩ :=
    Runs.exec_of_allOk hkeeps (show Sound true setup (init s) from hsound) hok
  refine ⟨⟨x, hrun, hx.shows⟩, ?_⟩
  refine Runs.allOk_iff_of_allOk (I := Sound true setup) (P := fun x => x.shell.outside = false) ?_ ?_
    hsound houtside hok hrun
  · intro x c y hx hc hy
    obtain ⟨y', hy', hsound', -⟩ := hstep x c hx hc
    obtain rfl := Option.some.inj (hy'.symm.trans hy)
    exact hsound'
  · intro x c y hx hc hxo hy
    obtain ⟨y', hy', -, ho⟩ := hstep x c hx hc
    obtain rfl := Option.some.inj (hy'.symm.trans hy)
    rw [ho, hxo, Bool.false_or, TypesAtStart, Bool.not_eq_true]

theorem allOk_of_onKey {ok : ShellSession → Byte → Prop} {bytes : List Byte} (hinput : x.input = .key)
    (hok : ∀ c ∈ bytes, (ShellInput.onKey c).1 = .key ∧
      ∀ x : ShellSession, x.key c = (ShellInput.onKey c).2 → ok x c) : Runs.AllOk ok step x bytes := by
  induction bytes generalizing x with
  | nil => trivial
  | cons c bytes ih =>
      obtain ⟨⟨hnext, hkey⟩, hok⟩ := List.forall_mem_cons.mp hok
      refine ⟨hkey x (by rw [key, hinput]; rfl), fun y hy => ih ?_ hok⟩
      obtain ⟨s', -, hs'⟩ := Option.bind_eq_some_iff.mp hy
      obtain rfl := Option.some.inj hs'
      change (x.input.next c).1 = _
      rw [hinput]
      exact hnext

end ShellSession

def LineBuf.zero : LineBuf := ⟨List.replicate lineMax 0#8, List.length_replicate⟩

def Shell.zero : Shell where
  cursorPos := 0
  charCnt := 0
  promptLen := 0
  buf := .zero
  prompt := .zero
  inputBackup := .zero
  showAutocompl := false
  autocomplCursorPos := 0
  autocomplCnt := 0
  autocomplCurr := 0
  autocompl := none
  historyMaxCnt := 0
  historyCnt := 0
  showHistory := false
  history := none
  historyLinks := ⟨id, id⟩
  historyCurr := .head
  shellCmds := none
  terminal := ⟨[], 0⟩
  outside := false

namespace ShellSession

/-- The commands help and hex. -/
def helpCmds : List ShellCmd :=
  [⟨[104#8, 101#8, 108#8, 112#8], by decide, by decide⟩, ⟨[104#8, 101#8, 120#8], by decide, by decide⟩]

/-- The keys h, e, Tab, Enter, Up, Ctrl-B, x. -/
def helpKeys : List Byte := [104#8, 101#8, 9#8, 13#8, 27#8, 91#8, 65#8, 2#8, 120#8]

theorem shellLine_of_help : ∃ s,
    Shell.zero.start (some helpCmds) (some [.zero, .zero]) 2 (some [.zero, .zero]) [] = some s ∧
    (∃ x, Runs.exec step (init s) helpKeys = some x ∧
      0 ≤ x.shell.cursorPos ∧ x.shell.cursorPos ≤ x.shell.charCnt ∧
      x.shell.charCnt ≤ (lineMax - 1 : Nat) ∧
      x.shell.buf.strlen.map Nat.cast = some x.shell.charCnt ∧
      x.shell.buf.string = some x.editor.text ∧ x.shell.cursorPos = x.editor.cursor) ∧
    (Runs.AllOk (fun x c => ¬x.TypesAtStart c) step (init s) helpKeys ↔
      ∀ n x, Runs.exec step (init s) (helpKeys.take n) = some x → x.shell.outside = false) ∧
    (Runs.exec step (init s) helpKeys).map (fun x => (x.entered, x.editor.text)) =
      some ([[104#8, 101#8, 108#8, 112#8]], [104#8, 101#8, 108#8, 120#8, 112#8]) := by
  have hstart : Shell.zero.start (some helpCmds) (some [.zero, .zero]) 2 (some [.zero, .zero]) [] =
      some _ := rfl
  have hline := shellLine_of_editOk hstart (fun hs h => by
    obtain rfl := Option.some.inj h
    exact ⟨rfl, by decide⟩) (show Runs.AllOk EditOk step _ helpKeys by decide +kernel)
  exact ⟨_, hstart, hline.1, hline.2, by decide +kernel⟩

/-- The first character reads the byte before `buf`, and Ctrl-C leaves it there. -/
theorem shellLine_not_for_a : ∃ s x y, Shell.zero.start none none 0 none [] = some s ∧
    Runs.exec step (init s) [97#8] = some x ∧ x.shell.outside = true ∧
    Runs.exec step (init s) [97#8, 3#8] = some y ∧ y.shell.charCnt = 0 ∧
      y.shell.buf.strlen = some 1 :=
  ⟨_, _, _, rfl, rfl, rfl, rfl, rfl, rfl⟩

end ShellSession

end Tenok
