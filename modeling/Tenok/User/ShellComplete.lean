import Tenok.User.ShellLine

/-!
`shell_generate_suggest_words` and `shell_autocomplete`: the words that are offered for the line, and
the line that a Tab shows.
-/
namespace Tenok
open Ring

namespace Shell
variable {s : Shell} {a : LineBuf} {t p w b : List Byte} {ws : List (List Byte)}
  {cmds : List ShellCmd} {entries : List LineBuf} {i j k n : Nat}

/-- The line with the command for what is before the cursor. -/
def completion (t name : List Byte) (argv0Start cursorPos : Nat) : List Byte :=
  t.take argv0Start ++ name ++ t.drop cursorPos

def completions (buf t : List Byte) (argv0Start cursorPos : Nat) (cmds : List ShellCmd) :
    List (List Byte) :=
  (cmds.filter (matchesCmd buf argv0Start cursorPos)).map fun cmd =>
    completion t cmd.name argv0Start cursorPos

def Filled (entries : List LineBuf) (ws : List (List Byte)) : Prop :=
  ∀ (i : Nat) (w : List Byte), ws[i]? = some w → ∃ a : LineBuf, entries[i]? = some a ∧ a.Holds w

theorem Filled.nil (entries : List LineBuf) : Filled entries [] := fun i w h => by cases h

theorem Filled.snoc (h : Filled entries ws) (hlt : ws.length < entries.length) (ha : a.Holds w) :
    Filled (entries.set ws.length a) (ws ++ [w]) := by
  intro i v hv
  rcases Nat.lt_trichotomy i ws.length with hi | rfl | hi
  · rw [List.getElem?_append_left hi] at hv
    rw [List.getElem?_set_ne hi.ne']
    exact h i v hv
  · rw [List.getElem?_append_right (Nat.le_refl _), Nat.sub_self] at hv
    obtain rfl := Option.some.inj hv
    exact ⟨a, List.getElem?_set_self hlt, ha⟩
  · rw [List.getElem?_eq_none (by rw [List.length_append, List.length_singleton]; omega)] at hv
    cases hv

/-! ### The candidates -/

theorem matchesCmd_length {cmd : ShellCmd} (hbuf : a.Holds t) (hi : i ≤ k) (hk : k ≤ t.length)
    (h : matchesCmd a.bytes i k cmd = true) : k - i ≤ cmd.name.length := by
  obtain ⟨hnul, rest, hbytes⟩ := hbuf
  have htake : (a.bytes.drop i).take (k - i) = (t.drop i).take (k - i) := by
    rw [hbytes, List.drop_append_of_le_length (by omega),
      List.take_append_of_le_length (by rw [List.length_drop]; omega)]
  have hnul' : 0#8 ∉ (a.bytes.drop i).take (k - i) := by
    rw [htake]
    exact fun hz => hnul (List.mem_of_mem_drop (List.mem_of_mem_take hz))
  have hlen : k - i ≤ (a.bytes.drop i).length := by
    rw [hbytes, List.length_drop, List.length_append]
    omega
  obtain ⟨heq, hle⟩ := strncmpEq_take h hnul' hlen
  rw [List.length_append, List.length_singleton] at hle
  by_contra hgt
  refine hnul' ?_
  rw [← heq, List.take_of_length_le (by rw [List.length_append, List.length_singleton]; omega)]
  simp

theorem suggestCandidate_eq {name : List Byte} (hbuf : a.Holds t) (hi : i ≤ k) (hk : k ≤ j)
    (hj : j ≤ t.length) : suggestCandidate a.bytes name i j k t.length =
      completion t name i k ++ [0#8] := by
  obtain ⟨-, rest, hbytes⟩ := hbuf
  have htail : (a.bytes.drop k).take (j - k) ++ (a.bytes.drop j).take (t.length - j) = t.drop k := by
    rw [hbytes, List.drop_append_of_le_length (by omega), List.drop_append_of_le_length hj,
      List.take_append_of_le_length (by rw [List.length_drop]; omega),
      List.take_left' (by rw [List.length_drop])]
    conv_rhs => rw [← List.take_append_drop (j - k) (t.drop k), List.drop_drop]
    rw [show k + (j - k) = j by omega]
  rw [suggestCandidate, completion, List.append_assoc _ _ (List.take (t.length - j) _), htail, hbytes,
    List.take_append_of_le_length (by omega)]

theorem completion_noNul {cmd : ShellCmd} (hbuf : a.Holds t) : 0#8 ∉ completion t cmd.name i k := by
  simp only [completion, List.mem_append, not_or]
  refine ⟨⟨fun h => ?_, cmd.noNul⟩, fun h => ?_⟩
  · exact hbuf.noNul (List.mem_of_mem_take h)
  · exact hbuf.noNul (List.mem_of_mem_drop h)

theorem completions_length (hbuf : a.Holds t) (hi : i ≤ k) (hk : k ≤ t.length)
    (hw : w ∈ completions a.bytes t i k cmds) : k ≤ w.length := by
  obtain ⟨cmd, hcmd, rfl⟩ := List.mem_map.mp hw
  have hlen := matchesCmd_length hbuf hi hk (List.mem_filter.mp hcmd).2
  rw [completion, List.length_append, List.length_append, List.length_take, List.length_drop]
  omega

theorem overwrite_holds (hw : 0#8 ∉ w) (hlt : w.length < lineMax) :
    ∃ a', a.overwrite (w ++ [0#8]) = some a' ∧ a'.Holds w := by
  have hle : (w ++ [0#8]).length ≤ lineMax := by
    rw [List.length_append, List.length_singleton]
    exact hlt
  refine ⟨_, dif_pos hle, hw, a.bytes.drop (w ++ [0#8]).length, ?_⟩
  change w ++ [0#8] ++ _ = _
  rw [List.append_assoc]
  rfl

theorem suggestLoop_spec (hbuf : a.Holds t) (hi : i ≤ k) (hk : k ≤ j) (hj : j ≤ t.length)
    (hfits : ∀ w ∈ completions a.bytes t i k cmds, w.length < lineMax)
    (hroom : ws.length + cmds.length ≤ entries.length) (hfilled : Filled entries ws) :
    ∃ entries', suggestLoop a.bytes i j k t.length cmds entries ws.length =
        some (entries', (ws ++ completions a.bytes t i k cmds).length) ∧
      entries'.length = entries.length ∧ Filled entries' (ws ++ completions a.bytes t i k cmds) := by
  induction cmds generalizing entries ws with
  | nil => exact ⟨entries, by simp [suggestLoop, completions], rfl, by simpa [completions]⟩
  | cons cmd cmds ih =>
      rw [List.length_cons] at hroom
      by_cases hmatch : matchesCmd a.bytes i k cmd = true
      · have hcons : completions a.bytes t i k (cmd :: cmds) =
            completion t cmd.name i k :: completions a.bytes t i k cmds := by
          rw [completions, List.filter_cons_of_pos hmatch]
          rfl
        rw [hcons] at hfits ⊢
        obtain ⟨hfit, hfits⟩ := List.forall_mem_cons.mp hfits
        obtain ⟨entry, hentry⟩ : ∃ entry, entries[ws.length]? = some entry :=
          ⟨_, List.getElem?_eq_getElem (by omega)⟩
        obtain ⟨entry', hwrite, hholds⟩ := overwrite_holds (a := entry) (completion_noNul hbuf) hfit
        have hroom' : (ws ++ [completion t cmd.name i k]).length + cmds.length ≤
            (entries.set ws.length entry').length := by
          rw [List.length_append, List.length_singleton, List.length_set]
          omega
        obtain ⟨entries', hloop, hlen, hfilled'⟩ :=
          ih hfits hroom' (hfilled.snoc (by omega) hholds)
        rw [List.append_assoc, List.singleton_append] at hloop hfilled'
        refine ⟨entries', ?_, hlen.trans List.length_set, hfilled'⟩
        rw [suggestLoop, if_pos hmatch, hentry, Option.bind_eq_bind, Option.bind_some,
          suggestCandidate_eq hbuf hi hk hj, hwrite, Option.bind_some, ← hloop,
          List.length_append, List.length_singleton]
      · have hskip : completions a.bytes t i k (cmd :: cmds) = completions a.bytes t i k cmds := by
          rw [completions, List.filter_cons_of_neg hmatch]
          rfl
        rw [hskip] at hfits ⊢
        rw [suggestLoop, if_neg hmatch]
        exact ih hfits (by omega) hfilled

/-! ### The line that is shown -/

theorem shellGenerateSuggestWords_spec (hbuf : s.buf.Holds t) (hcursor : s.cursorPos = (k : Nat))
    (hi : i ≤ k) (hk : k ≤ j) (hj : j ≤ t.length) (hroom : s.cmds.length ≤ entries.length)
    (hfits : ∀ w ∈ completions s.buf.bytes t i k s.cmds, w.length < lineMax) :
    ∃ entries', s.shellGenerateSuggestWords entries i j = some { s with
        autocompl := some entries',
        autocomplCnt := (completions s.buf.bytes t i k s.cmds).length } ∧
      entries'.length = entries.length ∧
      Filled entries' (completions s.buf.bytes t i k s.cmds) := by
  have hroom' : ([] : List (List Byte)).length + s.cmds.length ≤ entries.length := by
    rwa [List.length_nil, Nat.zero_add]
  obtain ⟨entries', hloop, hlen, hfilled⟩ :=
    suggestLoop_spec hbuf hi hk hj hfits hroom' (Filled.nil entries)
  rw [List.nil_append] at hloop hfilled
  refine ⟨entries', ?_, hlen, hfilled⟩
  rw [shellGenerateSuggestWords, hbuf.strlen, Option.bind_eq_bind, Option.bind_some,
    if_neg (not_lt.mpr hj), hcursor, Int.toNat_natCast]
  change (suggestLoop s.buf.bytes i j k t.length s.cmds entries ([] : List (List Byte)).length).bind _ = _
  rw [hloop]
  rfl

theorem beginAutocomplete_spec (hbuf : s.buf.Holds t) (hcursor : s.cursorPos = (k : Nat)) (hi : i ≤ k)
    (hk : k ≤ j) (hj : j ≤ t.length) (hroom : s.cmds.length ≤ entries.length)
    (hfits : ∀ w ∈ completions s.buf.bytes t i k s.cmds, w.length < lineMax) :
    ∃ entries', s.beginAutocomplete entries i j = some { s with
        inputBackup := s.buf.copy, autocompl := some entries',
        autocomplCnt := (completions s.buf.bytes t i k s.cmds).length,
        autocomplCursorPos := s.cursorPos, autocomplCurr := 0, showAutocompl := true } ∧
      entries'.length = entries.length ∧
      Filled entries' (completions s.buf.bytes t i k s.cmds) := by
  obtain ⟨entries', hwords, hlen, hfilled⟩ := shellGenerateSuggestWords_spec
    (s := { s with inputBackup := s.buf.copy }) hbuf hcursor hi hk hj hroom hfits
  refine ⟨entries', ?_, hlen, hfilled⟩
  rw [beginAutocomplete, hwords]
  rfl

theorem showSuggestion_spec (hprompt : s.prompt.Holds p) (hbackup : s.inputBackup.Holds b)
    (hcount : s.autocomplCnt = ws.length) (hfilled : Filled (s.autocompl.getD []) ws)
    (hcurr : (ws ++ [b])[s.autocomplCurr]? = some w) :
    ∃ buf, s.showSuggestion = some { s with
        buf, charCnt := w.length, autocomplCurr := s.autocomplCurr + 1,
        showAutocompl := s.showAutocompl && decide (s.autocomplCurr ≠ ws.length),
        terminal := ⟨p ++ w, s.promptLen + s.cursorPos⟩ } ∧ buf.Holds w := by
  by_cases hlast : s.autocomplCurr = ws.length
  · rw [hlast, List.getElem?_append_right (Nat.le_refl _), Nat.sub_self] at hcurr
    obtain rfl := Option.some.inj hcurr
    refine ⟨_, ?_, hbackup.copy⟩
    rw [showSuggestion, if_pos (hlast.trans hcount.symm), Option.bind_eq_bind, Option.bind_some]
    change s.inputBackup.copy.strlen.bind _ = _
    rw [hbackup.copy.strlen, Option.bind_some]
    refine (shellRefreshLine_eq (s := { s with
      buf := s.inputBackup.copy, charCnt := b.length, autocomplCurr := s.autocomplCurr + 1,
      showAutocompl := false }) hprompt hbackup.copy).trans ?_
    rw [decide_eq_false (not_not.mpr hlast), Bool.and_false]
  · have hlt : s.autocomplCurr < ws.length := by
      have h := (List.getElem?_eq_some_iff.mp hcurr).1
      rw [List.length_append, List.length_singleton] at h
      omega
    rw [List.getElem?_append_left hlt] at hcurr
    obtain ⟨entry, hentry, hholds⟩ := hfilled _ _ hcurr
    refine ⟨_, ?_, hholds.copy⟩
    rw [showSuggestion, if_neg (hcount ▸ hlast), hentry, Option.bind_eq_bind, Option.bind_some]
    change entry.copy.strlen.bind _ = _
    rw [hholds.copy.strlen, Option.bind_some]
    refine (shellRefreshLine_eq (s := { s with
      buf := entry.copy, charCnt := w.length, autocomplCurr := s.autocomplCurr + 1 })
      hprompt hholds.copy).trans ?_
    rw [decide_eq_true hlast, Bool.and_true]

end Shell

end Tenok
