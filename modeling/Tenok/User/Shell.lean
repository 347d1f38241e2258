import Tenok.Common.List
import Tenok.User.ShellTokens

/-!
`user/shell/shell.c`: the line that is edited, the completion of its first word and the history. A
`char` array of `LINE_MAX` bytes is a `LineBuf`; an access outside of one is `none`, but for the
byte before `buf` that `shell_insert_char` reads.
-/
namespace Tenok
open Ring

def lineMax : Nat := 50

structure LineBuf where
  bytes : List Byte
  size : bytes.length = lineMax

namespace LineBuf

def read (a : LineBuf) : Int → Option Byte
  | .ofNat i => a.bytes[i]?
  | .negSucc _ => none

def write (a : LineBuf) (i : Int) (b : Byte) : Option LineBuf :=
  match i with
  | .ofNat i => if i < lineMax then some ⟨a.bytes.set i b, List.length_set.trans a.size⟩ else none
  | .negSucc _ => none

def strlen (a : LineBuf) : Option Nat := strlen? a.bytes

def string (a : LineBuf) : Option (List Byte) := stringAt a.bytes 0

def copy (src : LineBuf) : LineBuf :=
  ⟨strncpy src.bytes lineMax, by
    have hle : ((src.bytes.takeWhile (· ≠ 0#8)).take lineMax).length ≤ lineMax :=
      List.length_take_le _ _
    rw [strncpy, List.length_append, List.length_replicate]
    omega⟩

/-- `memcpy` to the start of the array. -/
def overwrite (a : LineBuf) (words : List Byte) : Option LineBuf :=
  if h : words.length ≤ lineMax then
    some ⟨words ++ a.bytes.drop words.length, by
      rw [List.length_append, List.length_drop, a.size]
      omega⟩
  else none

end LineBuf

/-- `struct shell_cmd` without its handler. -/
structure ShellCmd where
  name : List Byte
  noNul : 0#8 ∉ name
  fits : name.length < lineMax

/-- A `struct list_head`: `history_head`, or the `list` field of a slot of `history`. -/
inductive HistoryNode
  | head
  | slot (i : Nat)
  deriving DecidableEq, Repr

structure TerminalLine where
  text : List Byte
  column : Int

structure Shell where
  cursorPos : Int
  charCnt : Int
  promptLen : Nat
  buf : LineBuf
  prompt : LineBuf
  inputBackup : LineBuf
  showAutocompl : Bool
  autocomplCursorPos : Int
  autocomplCnt : Nat
  autocomplCurr : Nat
  /-- `autocompl[i].cmd`. -/
  autocompl : Option (List LineBuf)
  historyMaxCnt : Nat
  historyCnt : Nat
  showHistory : Bool
  /-- `history[i].cmd`. -/
  history : Option (List LineBuf)
  historyLinks : Cells HistoryNode
  historyCurr : HistoryNode
  shellCmds : Option (List ShellCmd)
  terminal : TerminalLine
  /-- A byte outside `buf` has been read. -/
  outside : Bool

namespace Shell

def cmds (s : Shell) : List ShellCmd := s.shellCmds.getD []

/-- `autocompl[i].cmd[0] = 0` for `cmd_cnt` entries. -/
def clearEntries : Nat → List LineBuf → Option (List LineBuf)
  | 0, entries => some entries
  | _ + 1, [] => none
  | n + 1, entry :: entries => do
      let entry ← entry.write 0 0#8
      let entries ← clearEntries n entries
      some (entry :: entries)

def initAutocompl (cmdCnt : Nat) : Option (List LineBuf) → Option (Option (List LineBuf))
  | some entries => (clearEntries cmdCnt entries).map some
  | none => if cmdCnt = 0 then some none else none

def shellInit (s : Shell) (shellCmds : Option (List ShellCmd)) (history : Option (List LineBuf))
    (historyMaxCnt : Nat) (autocompl : Option (List LineBuf)) : Option Shell := do
  let prompt ← s.prompt.write 0 0#8
  let buf ← s.buf.write 0 0#8
  let autocompl ← initAutocompl (shellCmds.getD []).length autocompl
  some { s with
    prompt, promptLen := 0, cursorPos := 0, buf, charCnt := 0, shellCmds, history,
    historyCnt := 0, historyMaxCnt, showHistory := false, showAutocompl := false, autocompl,
    autocomplCurr := 0, autocomplCnt := 0,
    historyLinks := initListHead s.historyLinks HistoryNode.head, outside := false }

def shellSetPrompt (s : Shell) (newPrompt : List Byte) : Option Shell := do
  let prompt ← s.prompt.overwrite (strncpy newPrompt (lineMax - 1))
  let promptLen ← prompt.strlen
  some { s with prompt, promptLen }

/-- `shell_puts` of the prompt on a new line. -/
def putPrompt (s : Shell) : Option Shell := do
  let text ← s.prompt.string
  some { s with terminal := ⟨text, text.length⟩ }

/-- `shell_init` and `shell_set_prompt`, and `shell_listen` up to the first key. -/
def start (s : Shell) (shellCmds : Option (List ShellCmd)) (history : Option (List LineBuf))
    (historyMaxCnt : Nat) (autocompl : Option (List LineBuf)) (newPrompt : List Byte) :
    Option Shell := do
  let s ← s.shellInit shellCmds history historyMaxCnt autocompl
  let s ← s.shellSetPrompt newPrompt
  s.putPrompt

def shellRefreshLine (s : Shell) : Option Shell := do
  let prompt ← s.prompt.string
  let text ← s.buf.string
  some { s with terminal := ⟨prompt ++ text, s.promptLen + s.cursorPos⟩ }

def shellResetLine (s : Shell) : Shell := { s with cursorPos := 0, charCnt := 0 }

def shellResetHistoryScrolling (s : Shell) : Shell := { s with showHistory := false }

def shellResetAutocomplete (s : Shell) : Shell := { s with showAutocompl := false }

/-! ### Characters -/

/-- The loop of `shell_remove_char` from index `i` on. -/
def removeLoop (charCnt : Int) : Nat → Int → LineBuf → Option LineBuf
  | 0, _, _ => none
  | fuel + 1, i, buf =>
      if i < charCnt then do
        let c ← buf.read (i + 1)
        let buf ← buf.write i c
        removeLoop charCnt fuel (i + 1) buf
      else some buf

def shellRemoveChar (s : Shell) (removePos : Int) : Option Shell := do
  let buf ← removeLoop s.charCnt (lineMax + 1) (removePos - 1) s.buf
  let buf ← buf.write s.charCnt 0#8
  let charCnt := s.charCnt - 1
  let cursorPos := s.cursorPos - 1
  some { s with buf, charCnt, cursorPos := if charCnt < cursorPos then charCnt else cursorPos }

/-- The loop of `shell_insert_char` from index `i` down. The byte before `buf` is the highest one of
`prompt_len`. -/
def insertLoop (cursorPos : Int) : Nat → Int → LineBuf → Bool → Option (LineBuf × Bool)
  | 0, _, _, _ => none
  | fuel + 1, i, buf, outside =>
      if cursorPos - 1 < i then do
        let c ← if i = 0 then some 0#8 else buf.read (i - 1)
        let buf ← buf.write i c
        insertLoop cursorPos fuel (i - 1) buf (outside || decide (i = 0))
      else some (buf, outside)

def shellInsertChar (s : Shell) (c : Byte) : Option Shell := do
  let (buf, outside) ← insertLoop s.cursorPos (lineMax + 1) s.charCnt s.buf s.outside
  let charCnt := s.charCnt + 1
  let buf ← buf.write charCnt 0#8
  let buf ← buf.write s.cursorPos c
  some { s with buf, charCnt, cursorPos := s.cursorPos + 1, outside }

/-! ### The history -/

def shellPushNewHistory (s : Shell) : Option Shell :=
  match s.history with
  | none => some s
  | some history => do
      let (i, links, historyCnt) ←
        if s.historyCnt < s.historyMaxCnt then
          some (s.historyMaxCnt - s.historyCnt - 1, s.historyLinks, s.historyCnt + 1)
        else
          match next s.historyLinks HistoryNode.head with
          | .slot i => some (i, listDel s.historyLinks (HistoryNode.slot i), s.historyCnt)
          | .head => none
      if i < history.length then
        some { s with
          history := some (history.set i s.buf.copy),
          historyLinks := listAdd links (HistoryNode.slot i) HistoryNode.head, historyCnt,
          historyCurr := .head, showHistory := false }
      else none

/-- What both arrow handlers do once they have moved `history_curr`. -/
def showHistoryCurr (s : Shell) (history : List LineBuf) : Option Shell := do
  let s ← match s.historyCurr with
    | .head => some { s with buf := s.inputBackup.copy, showHistory := false }
    | .slot i => do
        let cmd ← history[i]?
        some { s with buf := cmd.copy }
  let n ← s.buf.strlen
  shellRefreshLine { s with charCnt := n, cursorPos := n }

def shellUpArrowHandler (s : Shell) : Option Shell :=
  match s.history with
  | none => some s
  | some history =>
      if listEmpty s.historyLinks HistoryNode.head then some s
      else
        let s := if s.showHistory then s
          else { s with inputBackup := s.buf.copy, showHistory := true }
        showHistoryCurr { s with historyCurr := prev s.historyLinks s.historyCurr } history

def shellDownArrowHandler (s : Shell) : Option Shell :=
  match s.history with
  | none => some s
  | some history =>
      if s.showHistory then
        showHistoryCurr { s with historyCurr := next s.historyLinks s.historyCurr } history
      else some s

/-! ### Completion -/

/-- `while (p(buf[i]) && (i < char_cnt)) i++`. -/
def scan (p : Byte → Bool) (buf : LineBuf) (charCnt : Int) : Nat → Nat → Option Nat
  | 0, _ => none
  | fuel + 1, i => do
      let c ← buf.bytes[i]?
      if p c = true ∧ (i : Int) < charCnt then scan p buf charCnt fuel (i + 1) else some i

/-- The first argument that `shell_autocomplete` works on: none behind it, and an empty one at the
cursor before it. -/
def argv0 (s : Shell) : Option (Option (Nat × Nat)) := do
  let argv0Start ← scan (fun c => decide (c = space)) s.buf s.charCnt (lineMax + 1) 0
  let argv0End ← scan (fun c => decide (c ≠ space)) s.buf s.charCnt (lineMax + 1) argv0Start
  if (argv0End : Int) < s.cursorPos then some none
  else if s.cursorPos < argv0Start then some (some (s.cursorPos.toNat, s.cursorPos.toNat))
  else some (some (argv0Start, argv0End))

def suggestCandidate (buf name : List Byte) (argv0Start argv0End cursorPos cmdLen : Nat) :
    List Byte :=
  buf.take argv0Start ++ name ++ (buf.drop cursorPos).take (argv0End - cursorPos) ++
    (buf.drop argv0End).take (cmdLen - argv0End) ++ [0#8]

def matchesCmd (buf : List Byte) (argv0Start cursorPos : Nat) (cmd : ShellCmd) : Bool :=
  strncmpEq (buf.drop argv0Start) (cmd.name ++ [0#8]) (cursorPos - argv0Start)

/-- The loop over the commands, with the entries and `autocompl_cnt`. -/
def suggestLoop (buf : List Byte) (argv0Start argv0End cursorPos cmdLen : Nat) :
    List ShellCmd → List LineBuf → Nat → Option (List LineBuf × Nat)
  | [], entries, cnt => some (entries, cnt)
  | cmd :: cmds, entries, cnt =>
      if matchesCmd buf argv0Start cursorPos cmd then do
        let entry ← entries[cnt]?
        let entry ← entry.overwrite
          (suggestCandidate buf cmd.name argv0Start argv0End cursorPos cmdLen)
        suggestLoop buf argv0Start argv0End cursorPos cmdLen cmds (entries.set cnt entry) (cnt + 1)
      else suggestLoop buf argv0Start argv0End cursorPos cmdLen cmds entries cnt

def shellGenerateSuggestWords (s : Shell) (entries : List LineBuf) (argv0Start argv0End : Nat) :
    Option Shell := do
  let cmdLen ← s.buf.strlen
  if cmdLen < argv0End then none
  else do
    let (entries, cnt) ← suggestLoop s.buf.bytes argv0Start argv0End s.cursorPos.toNat cmdLen
      s.cmds entries 0
    some { s with autocompl := some entries, autocomplCnt := cnt }

/-- The words for the line as it is, when the completion has not been initialized. -/
def beginAutocomplete (s : Shell) (entries : List LineBuf) (argv0Start argv0End : Nat) :
    Option Shell := do
  let s ← shellGenerateSuggestWords { s with inputBackup := s.buf.copy } entries argv0Start argv0End
  some { s with autocomplCursorPos := s.cursorPos, autocomplCurr := 0, showAutocompl := true }

/-- The candidate whose turn it is, or behind the last one the user input. -/
def showSuggestion (s : Shell) : Option Shell := do
  let s ← if s.autocomplCurr = s.autocomplCnt then
      some { s with buf := s.inputBackup.copy, showAutocompl := false }
    else do
      let suggestion ← (s.autocompl.getD [])[s.autocomplCurr]?
      some { s with buf := suggestion.copy }
  let n ← s.buf.strlen
  shellRefreshLine { s with autocomplCurr := s.autocomplCurr + 1, charCnt := n }

def shellAutocomplete (s : Shell) : Option Shell :=
  match s.autocompl with
  | none => some s
  | some entries => do
      match ← s.argv0 with
      | none => some s
      | some (argv0Start, argv0End) =>
          -- a cursor that has moved starts over
          let s ← if s.showAutocompl ∧ s.autocomplCursorPos = s.cursorPos then some s
            else beginAutocomplete s entries argv0Start argv0End
          showSuggestion s

/-! ### Keys -/

def shellCtrlCHandler (s : Shell) : Option Shell := do
  let s ← s.shellResetAutocomplete.shellResetHistoryScrolling.putPrompt
  some s.shellResetLine

def shellHomeHandler (s : Shell) : Option Shell := shellRefreshLine { s with cursorPos := 0 }

def shellEndHandler (s : Shell) : Option Shell :=
  if s.charCnt = 0 then some s else shellRefreshLine { s with cursorPos := s.charCnt }

def shellCtrlUHandler (s : Shell) : Option Shell := do
  let buf ← s.buf.write 0 0#8
  shellRefreshLine { s with buf, charCnt := 0, cursorPos := 0 }

def shellCursorShiftOneLeft (s : Shell) : Option Shell :=
  if s.cursorPos ≤ 0 then some s else shellRefreshLine { s with cursorPos := s.cursorPos - 1 }

def shellCursorShiftOneRight (s : Shell) : Option Shell :=
  if s.charCnt ≤ s.cursorPos then some s
  else shellRefreshLine { s with cursorPos := s.cursorPos + 1 }

def shellDeleteHandler (s : Shell) : Option Shell :=
  if s.charCnt = 0 ∨ s.cursorPos = s.charCnt then some s
  else do
    let s ← s.shellResetAutocomplete.shellResetHistoryScrolling.shellRemoveChar (s.cursorPos + 1)
    shellRefreshLine { s with cursorPos := s.cursorPos + 1 }

def shellBackspaceHandler (s : Shell) : Option Shell :=
  if s.charCnt = 0 ∨ s.cursorPos = 0 then some s
  else do
    let s ← s.shellResetAutocomplete.shellResetHistoryScrolling.shellRemoveChar s.cursorPos
    s.shellRefreshLine

def shellDefaultHandler (s : Shell) (c : Byte) : Option Shell :=
  if s.charCnt = lineMax - 1 then some s
  else do
    let s ← s.shellResetAutocomplete.shellResetHistoryScrolling.shellInsertChar c
    s.shellRefreshLine

/-- `shell_execute`. The handlers of the commands leave the shell alone. -/
def shellExecute (s : Shell) : Option Shell :=
  match s.shellCmds with
  | none => some s
  | some _ => do
      let line ← s.buf.string
      let tokens ← shellSplitCmdToken (line ++ [0#8]) (List.replicate shellArgCnt none)
      let buf ← s.buf.overwrite tokens.cmd
      let buf ← buf.write 0 0#8
      some (shellResetLine { s with buf })

/-- The end of `shell_listen`, with the rest of the loop of `shell_task`. -/
def shellEnterHandler (s : Shell) : Option Shell :=
  let s := s.shellResetHistoryScrolling.shellResetAutocomplete
  if 0 < s.charCnt then do
    let s ← s.shellResetLine.shellPushNewHistory
    let s ← s.shellExecute
    s.putPrompt
  else s.putPrompt

end Shell

/-- What a byte, or the last byte of an escape sequence, makes `shell_listen` do. -/
inductive ShellKey
  | none
  | ctrlA
  | left
  | ctrlC
  | ctrlE
  | right
  | tab
  | enter
  | ctrlU
  | up
  | down
  | home
  | toEnd
  | delete
  | backspace
  | default (c : Byte)
  deriving DecidableEq, Repr

/-- What `shell_listen` reads next: a key, or more of an escape sequence. -/
inductive ShellInput
  | key
  | seq0
  | seq1 (first : Byte)
  /-- The byte after `HOME_VT100` and `END_VT100`. -/
  | skip
  /-- The byte after `DELETE`. -/
  | seq2
  deriving DecidableEq, Repr

def ShellInput.onKey (c : Byte) : ShellInput × ShellKey :=
  match c.toNat with
  | 1 => (.key, .ctrlA)
  | 2 => (.key, .left)
  | 3 => (.key, .ctrlC)
  | 5 => (.key, .ctrlE)
  | 6 => (.key, .right)
  | 9 => (.key, .tab)
  | 13 => (.key, .enter)
  | 21 => (.key, .ctrlU)
  | 27 => (.seq0, .none)
  | 127 => (.key, .backspace)
  | 0 | 4 | 7 | 8 | 10 | 11 | 12 | 14 | 15 | 16 | 17 | 18 | 19 | 20 | 23 | 24 | 25 | 26 =>
      (.key, .none)
  | _ => (.key, .default c)

/-- The third byte of an escape sequence. -/
def ShellInput.onSeq (c : Byte) : ShellInput × ShellKey :=
  match c.toNat with
  | 65 => (.key, .up)
  | 66 => (.key, .down)
  | 67 => (.key, .right)
  | 68 => (.key, .left)
  | 72 => (.key, .home)
  | 49 => (.skip, .home)
  | 70 => (.key, .toEnd)
  | 52 => (.skip, .toEnd)
  | 51 => (.seq2, .none)
  | _ => (.key, .none)

def ShellInput.next : ShellInput → Byte → ShellInput × ShellKey
  | .key, c => onKey c
  | .seq0, c => (.seq1 c, .none)
  | .seq1 first, c => if first = 91#8 then onSeq c else (.key, .none)
  | .skip, _ => (.key, .none)
  | .seq2, c => (.key, if c = 126#8 then .delete else .none)

namespace Shell

def press (s : Shell) : ShellKey → Option Shell
  | .none => some s
  | .ctrlA | .home => s.shellHomeHandler
  | .left => s.shellCursorShiftOneLeft
  | .ctrlC => s.shellCtrlCHandler
  | .ctrlE | .toEnd => s.shellEndHandler
  | .right => s.shellCursorShiftOneRight
  | .tab => s.shellAutocomplete
  | .enter => s.shellEnterHandler
  | .ctrlU => s.shellCtrlUHandler
  | .up => s.shellUpArrowHandler
  | .down => s.shellDownArrowHandler
  | .delete => s.shellDeleteHandler
  | .backspace => s.shellBackspaceHandler
  | .default c => s.shellDefaultHandler c

end Shell

end Tenok
