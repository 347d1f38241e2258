import Tenok.Tools.Msggen
import Mathlib.Data.List.TakeWhile

/-!
The messages: the fields of a text, line by line, and what `codegen` makes of it.
-/
namespace Tenok.Msggen

namespace MsgField

/-- The name with its array size, as the line has it. -/
def declarator (f : MsgField) : List Byte := Msggen.declarator f.varName f.arraySize

/-- `type name`, `type name[size]`, and a quoted description behind it if there is one. -/
def Written (f : MsgField) (line : List Byte) : Prop :=
  IsToken f.cType ∧ IsName f.declarator f.varName f.arraySize ∧
    (Plain f.cType f.declarator line ∧ f.description = [] ∨
      Quoted f.cType f.declarator f.description line)

def Documented (f : MsgField) (line : List Byte) : Prop := f.cType ∈ supportTypes ∧ f.Written line

def Accepted (f : MsgField) (line : List Byte) : Prop := typeCheck f.cType = true ∧ f.Written line

end MsgField

/-- The fields of the lines, in order; a line of spaces has none. -/
inductive Lists (P : MsgField → List Byte → Prop) : List (List Byte) → List MsgField → Prop
  | nil : Lists P [] []
  | blank {lines : List (List Byte)} {fs : List MsgField} (k : Nat) (h : Lists P lines fs) :
      Lists P (spaces k :: lines) fs
  | field {line : List Byte} {lines : List (List Byte)} {f : MsgField} {fs : List MsgField}
      (hf : f.Written line) (hP : P f line) (h : Lists P lines fs) :
      Lists P (line :: lines) (f :: fs)

def Conforming (lines : List (List Byte)) : Prop :=
  ∃ fs, Lists MsgField.Documented lines fs ∧ (fs.map MsgField.varName).Nodup

/-- Complete lines, and what is after the last newline. -/
def messageText (lines : List (List Byte)) (last : List Byte) : List Byte :=
  lines.flatMap (· ++ [newline]) ++ last

/-- The output has these fields. The structure has the descriptions in comments; without comments
there is none. -/
def Output.Lists (out : Output) (msgName : List Byte) (msgCnt : Nat) (fs : List MsgField) : Prop :=
  ∃ comments, out = ⟨Msggen.cHeader msgName msgCnt comments fs, Msggen.yaml msgCnt fs⟩ ∧
    (comments = true ∨ ∀ f ∈ fs, f.description = [])

/-- What the run of `codegen` should be. -/
structure Meets (msgName : List Byte) (msgCnt : Nat) (lines : List (List Byte)) (last : List Byte)
    (result : Option (Except MsgError Output)) : Prop where
  safe : ∃ r, result = some r ∧ r ≠ .error .outside
  accepts : (∃ out, result = some (.ok out)) ↔ Conforming (lines ++ [last])
  lists : ∀ out, result = some (.ok out) →
    ∃ fs, Lists MsgField.Documented (lines ++ [last]) fs ∧ out.Lists msgName msgCnt fs

/-- Where `codegen` does what it should. -/
structure MessageFits (lines : List (List Byte)) (last : List Byte) : Prop where
  /-- Before a line that is rejected, no type is much longer than the name. -/
  room : ∀ pre fs, pre <+: lines → Lists MsgField.Accepted pre fs →
    ∀ f ∈ fs, f.cType.length ≤ f.declarator.length + 1
  /-- The conditions on a text that is not rejected. -/
  whole : ∀ fs, Lists MsgField.Accepted lines fs → (fs.map MsgField.varName).Nodup →
    (∃ k, last = spaces k) ∧
    (∀ f ∈ fs, f.cType ∈ supportTypes ∧ f.cType.length ≤ f.declarator.length) ∧
    ((∃ f, fs.getLast? = some f ∧ f.description ≠ []) ∨ ∀ f ∈ fs, f.description = [])

/-! ### Lines and their fields -/

section Fields
variable {P Q : MsgField → List Byte → Prop} {line t n d head : List Byte} {f g : MsgField}
  {lines lines' pre : List (List Byte)} {fs gs : List MsgField} {k : Nat}

theorem isToken_declarator {s : List Byte} (hn : IsIdentifier n) (hs : s = [] ∨ IsNumeral s) :
    IsToken (declarator n s) := by
  have hchar : ∀ c ∈ declarator n s, (isDigit c || isLetter c) = true ∨ c = leftBracket ∨
      c = rightBracket := by
    intro c hc
    obtain hc | hc := List.mem_append.mp hc
    · obtain ⟨a, rest, rfl, ha, hrest⟩ := hn
      obtain rfl | hc := List.mem_cons.mp hc
      · exact .inl (by rw [ha, Bool.or_true])
      · exact .inl (hrest c hc)
    · obtain rfl | hs := hs
      · cases hc
      · rw [if_neg hs.1] at hc
        obtain rfl | hc := List.mem_cons.mp hc
        · exact .inr (.inl rfl)
        · obtain hc | hc := List.mem_append.mp hc
          · exact .inl (by rw [hs.2 c hc, Bool.true_or])
          · exact .inr (.inr (List.mem_singleton.mp hc))
  refine ⟨?_, fun hspace => ?_, fun hquote => ?_⟩
  · obtain ⟨a, rest, rfl, -⟩ := hn
    exact List.cons_ne_nil _ _
  · exact absurd (hchar _ hspace) (by decide)
  · exact absurd (hchar _ hquote) (by decide)

theorem MsgField.Documented.accepted (h : f.Documented line) : f.Accepted line :=
  ⟨typeCheck_supportTypes _ h.1, h.2⟩

theorem MsgField.Written.form (h : f.Written line) :
    ∃ cnt, cnt ≠ 0 ∧ Form line [f.cType, f.declarator, f.description] cnt := by
  obtain ⟨ht, hname, hline⟩ := h
  have hn : IsToken f.declarator := isToken_declarator hname.1 hname.2.1
  obtain ⟨hplain, hd⟩ | hquoted := hline
  · exact ⟨2, by decide, by rw [hd]; exact .plain ht hn hplain⟩
  · exact ⟨3, by decide, .quoted ht hn hquoted⟩

theorem Form.unique {tokens tokens' : List (List Byte)} {cnt cnt' : Nat}
    (h : Form line tokens cnt) (h' : Form line tokens' cnt') : tokens = tokens' ∧ cnt = cnt' := by
  have heq := (lexLine_iff.mpr h).symm.trans (lexLine_iff.mpr h')
  cases heq
  exact ⟨rfl, rfl⟩

theorem MsgField.Written.not_spaces (h : f.Written (spaces k)) : False := by
  obtain ⟨cnt, hcnt, hform⟩ := h.form
  exact hcnt (hform.unique (.blank rfl)).2

theorem MsgField.Written.unique (h : f.Written line) (h' : g.Written line) : f = g := by
  obtain ⟨cnt, -, hform⟩ := h.form
  obtain ⟨cnt', -, hform'⟩ := h'.form
  have htokens := (hform.unique hform').1
  rw [List.cons.injEq, List.cons.injEq, List.cons.injEq] at htokens
  obtain ⟨htype, hdecl, hdesc, -⟩ := htokens
  have hne : f.declarator ≠ [] := (isToken_declarator h.2.1.1 h.2.1.2.1).ne_nil
  have hlex := (nameLex_iff hne).mpr h.2.1
  rw [hdecl] at hne hlex
  have hname := hlex.symm.trans ((nameLex_iff hne).mpr h'.2.1)
  cases f
  cases g
  cases hname
  cases htype
  cases hdesc
  rfl

theorem Lists.mono (h : Lists P lines fs) (hPQ : ∀ f line, P f line → Q f line) :
    Lists Q lines fs := by
  induction h with
  | nil => exact .nil
  | blank k _ ih => exact .blank k ih
  | field hf hP _ ih => exact .field hf (hPQ _ _ hP) ih

theorem Lists.append (h : Lists P lines fs) (h' : Lists P lines' gs) :
    Lists P (lines ++ lines') (fs ++ gs) := by
  induction h with
  | nil => exact h'
  | blank k _ ih => exact .blank k ih
  | field hf hP _ ih => exact .field hf hP ih

theorem Lists.of_append (h : Lists P (lines ++ lines') fs) :
    ∃ gs hs, fs = gs ++ hs ∧ Lists P lines gs ∧ Lists P lines' hs := by
  induction lines generalizing fs with
  | nil => exact ⟨[], fs, rfl, .nil, h⟩
  | cons line lines ih =>
      cases h with
      | blank k h =>
          obtain ⟨gs, hs, rfl, hgs, hhs⟩ := ih h
          exact ⟨gs, hs, rfl, .blank k hgs, hhs⟩
      | field hf hP h =>
          obtain ⟨gs, hs, rfl, hgs, hhs⟩ := ih h
          exact ⟨_ :: gs, hs, rfl, .field hf hP hgs, hhs⟩

theorem Lists.unique (h : Lists P lines fs) (h' : Lists Q lines gs) : fs = gs := by
  induction h generalizing gs with
  | nil =>
      cases h'
      rfl
  | blank k _ ih =>
      generalize hline : spaces k = line at h'
      cases h' with
      | blank _ h' => exact ih h'
      | field hf _ _ =>
          rw [← hline] at hf
          exact hf.not_spaces.elim
  | field hf hP _ ih =>
      cases h' with
      | blank _ _ => exact hf.not_spaces.elim
      | field hf' _ h' => rw [hf.unique hf', ih h']

theorem Lists.start (h : Lists P lines fs) (h' : Lists P pre gs) (hpre : pre <+: lines) :
    gs <+: fs := by
  obtain ⟨rest, rfl⟩ := hpre
  obtain ⟨gs', hs, rfl, hgs, -⟩ := h.of_append
  rw [h'.unique hgs]
  exact List.prefix_append gs' hs

theorem Lists.of_start (h : Lists P lines fs) (hpre : pre <+: lines) : ∃ gs, Lists P pre gs := by
  obtain ⟨rest, rfl⟩ := hpre
  obtain ⟨gs, -, -, hgs, -⟩ := h.of_append
  exact ⟨gs, hgs⟩

end Fields

/-! ### The buffers of a field -/

section Buffers
variable {line t n d w head : List Byte} {f : MsgField} {k : Nat} {tokens : List (List Byte)}
  {cnt : Nat}

theorem Form.isPart (h : Form line tokens cnt) : ∀ w ∈ tokens, w <:+: line := by
  have hhead : ∀ {t n head : List Byte}, Heads t n head → t <:+: head ∧ n <:+: head := by
    rintro t n head ⟨a, b, rfl⟩
    exact ⟨⟨spaces a, spaces (b + 1) ++ n, by rw [List.append_assoc _ _ n]⟩,
      (List.suffix_append _ n).isInfix⟩
  have hparts : ∀ {t n head tail : List Byte}, Heads t n head →
      t <:+: head ++ tail ∧ n <:+: head ++ tail := by
    intro t n head tail h
    have hpre := (List.prefix_append head tail).isInfix
    exact ⟨(hhead h).1.trans hpre, (hhead h).2.trans hpre⟩
  intro w hw
  cases h with
  | blank h =>
      rw [List.mem_cons, List.mem_cons, List.mem_singleton, or_self, or_self] at hw
      rw [hw]
      exact List.nil_infix
  | plain ht hn h =>
      obtain ⟨head, m, hh, rfl⟩ := h
      rw [List.mem_cons, List.mem_cons, List.mem_singleton] at hw
      obtain rfl | rfl | rfl := hw
      · exact (hparts hh).1
      · exact (hparts hh).2
      · exact List.nil_infix
  | quoted ht hn h =>
      obtain ⟨hd, head, m, k, hh, rfl⟩ := h
      rw [List.mem_cons, List.mem_cons, List.mem_singleton] at hw
      obtain rfl | rfl | rfl := hw
      · exact (hparts hh).1
      · exact (hparts hh).2
      · exact ⟨head ++ (spaces (m + 1) ++ [quote]), quote :: spaces k, by simp [List.append_assoc]⟩

theorem string_pad_short (hw : 0#8 ∉ w) (hlen : w.length = k + 1) :
    string (pad k w) = .error .outside := by
  have hpad : pad k w = w := by
    rw [pad, hlen, Nat.sub_self, List.replicate_zero, List.append_nil]
  have hnone : strlen? w = none := by
    rw [strlen?, List.findIdx?_eq_none_iff]
    intro b hb
    exact decide_eq_false fun h => hw (h ▸ hb)
  rw [string, hpad, stringAt, List.drop_zero, hnone]
  rfl

theorem copy_pad (hw : 0#8 ∉ w) :
    copy (calloc (k + 1)) w w.length = if w.length ≤ k + 1 then .ok (pad k w) else .error .outside := by
  have htake : w.takeWhile (· ≠ 0#8) = w := by
    refine List.takeWhile_eq_self_iff.mpr fun b hb => ?_
    exact decide_eq_true fun h => hw (h ▸ hb)
  have hwrite : strncpy w w.length = w := by
    rw [strncpy, htake, List.take_length, Nat.sub_self]
    exact List.append_nil w
  rw [copy, hwrite, calloc, List.length_replicate, List.drop_replicate]
  rfl

namespace MsgField

/-- The buffers of a field from a line of `size` bytes. The one of the type is as long as the name. -/
def buffers (size : Nat) (f : MsgField) : MsgVarEntry :=
  ⟨pad size f.varName, pad f.declarator.length f.cType, pad size f.arraySize,
    pad f.description.length f.description⟩

def HasRoom (f : MsgField) : Prop := f.cType.length ≤ f.declarator.length + 1

instance (f : MsgField) : Decidable f.HasRoom := inferInstanceAs (Decidable (_ ≤ _))

/-- Strings that a line of `size` bytes can have. -/
structure Sized (size : Nat) (f : MsgField) : Prop where
  nul : 0#8 ∉ f.cType ∧ 0#8 ∉ f.varName ∧ 0#8 ∉ f.arraySize ∧ 0#8 ∉ f.description
  varName : f.varName.length ≤ size
  arraySize : f.arraySize.length ≤ size

theorem isPart_varName (f : MsgField) : f.varName <:+: f.declarator :=
  (List.prefix_append _ _).isInfix

theorem isPart_arraySize (f : MsgField) : f.arraySize <:+: f.declarator := by
  rw [declarator, Msggen.declarator]
  split
  next h =>
    rw [h]
    exact List.nil_infix
  · exact ⟨f.varName ++ [leftBracket], [rightBracket], by simp [List.append_assoc]⟩

theorem Written.sized (h : f.Written line) (hnul : 0#8 ∉ line) : f.Sized line.length := by
  obtain ⟨cnt, -, hform⟩ := h.form
  have hdecl : f.declarator <:+: line :=
    hform.isPart _ (List.mem_cons_of_mem _ List.mem_cons_self)
  have hname := f.isPart_varName.trans hdecl
  have hsize := f.isPart_arraySize.trans hdecl
  have hdesc : f.description <:+: line :=
    hform.isPart _ (List.mem_cons_of_mem _ (List.mem_cons_of_mem _ List.mem_cons_self))
  exact ⟨⟨fun hb => hnul ((hform.isPart _ List.mem_cons_self).subset hb),
    fun hb => hnul (hname.subset hb), fun hb => hnul (hsize.subset hb),
    fun hb => hnul (hdesc.subset hb)⟩, hname.length_le, hsize.length_le⟩

theorem Sized.field {size : Nat} (h : f.Sized size) (hroom : f.HasRoom) :
    (f.buffers size).field =
      if f.cType.length ≤ f.declarator.length then .ok f else .error .outside := by
  rw [MsgVarEntry.field, buffers, string_pad h.nul.2.1 h.varName, string_pad h.nul.2.2.1 h.arraySize,
    string_pad h.nul.2.2.2 (Nat.le_refl _)]
  split
  next hlen =>
    rw [string_pad h.nul.1 hlen]
    rfl
  next hlen =>
    have hshort : f.cType.length = f.declarator.length + 1 :=
      Nat.le_antisymm hroom (Nat.lt_of_not_le hlen)
    rw [string_pad_short h.nul.1 hshort]
    rfl

end MsgField

theorem parseLine_tokens (hform : Form line [t, n, d] cnt) (hcnt : cnt ≠ 0) (hnul : 0#8 ∉ line) :
    parseLine line = (nameLex n).bind fun r =>
      if typeCheck t = false then .error .unknownType
      else if t.length ≤ n.length + 1 then
        .ok (some (⟨pad line.length r.1, pad n.length t, pad line.length r.2, pad d.length d⟩,
          d.length))
      else .error .outside := by
  have hpart := hform.isPart
  have hnuls : ∀ w ∈ [t, n, d], 0#8 ∉ w := fun w hw hb => hnul ((hpart w hw).subset hb)
  have htoken : ∀ w ∈ [t, n, d], string (pad line.length w) = .ok w :=
    fun w hw => string_pad (hnuls w hw) (hpart w hw).length_le
  have ht : t ∈ [t, n, d] := List.mem_cons_self
  have hn : n ∈ [t, n, d] := List.mem_cons_of_mem _ List.mem_cons_self
  have hd : d ∈ [t, n, d] := List.mem_cons_of_mem _ (List.mem_cons_of_mem _ List.mem_cons_self)
  rw [parseLine, (splitTokens_ok_iff (Nat.le_refl _)).mpr ⟨_, hform, rfl⟩, ok_bind, if_neg hcnt]
  simp only [List.map_cons, List.map_nil, List.getD_cons_zero, List.getD_cons_succ]
  rw [htoken t ht, ok_bind, htoken n hn, ok_bind, htoken d hd, ok_bind,
    parseVariableName_eq (hpart n hn).length_le, copy_pad (hnuls t ht), copy_pad (hnuls d hd),
    if_pos (Nat.le_succ d.length)]
  cases nameLex n with
  | error e => rfl
  | ok r =>
      rw [Except.map, ok_bind, Except.bind]
      split
      · rfl
      · split <;> rfl

theorem parseLine_accepted (h : f.Accepted line) (hnul : 0#8 ∉ line) :
    parseLine line =
      if f.HasRoom then .ok (some (f.buffers line.length, f.description.length))
      else .error .outside := by
  obtain ⟨htype, hw⟩ := h
  obtain ⟨cnt, hcnt, hform⟩ := hw.form
  have hne : f.declarator ≠ [] := (isToken_declarator hw.2.1.1 hw.2.1.2.1).ne_nil
  have hneg : ¬ typeCheck f.cType = false := by
    rw [htype]
    decide
  rw [parseLine_tokens hform hcnt hnul, (nameLex_iff hne).mpr hw.2.1, Except.bind, if_neg hneg]
  rfl

theorem parseLine_blank : parseLine (spaces k) = .ok none := by
  rw [parseLine, (splitTokens_ok_iff (Nat.le_refl _)).mpr ⟨_, .blank rfl, rfl⟩]
  rfl

theorem parseLine_rejected (hblank : ∀ k, line ≠ spaces k) (hfield : ∀ f : MsgField, ¬ f.Accepted line)
    (hnul : 0#8 ∉ line) : ∃ e, e ≠ .outside ∧ parseLine line = .error e := by
  -- What is left when the line has a type and a name.
  have htokens : ∀ {t n d cnt}, Form line [t, n, d] cnt → cnt ≠ 0 → IsToken t → IsToken n →
      (Plain t n line ∧ d = [] ∨ Quoted t n d line) →
      ∃ e, e ≠ .outside ∧ parseLine line = .error e := by
    intro t n d cnt hform hcnt ht hn hline
    rw [parseLine_tokens hform hcnt hnul]
    cases hlex : nameLex n with
    | error e => exact ⟨e, by rw [nameLex_error hlex]; decide, rfl⟩
    | ok r =>
        have hname := (nameLex_iff hn.ne_nil).mp hlex
        cases htype : typeCheck t with
        | false => exact ⟨.unknownType, by decide, rfl⟩
        | true =>
            refine absurd ⟨htype, ht, ?_, ?_⟩ (hfield ⟨t, r.1, r.2, d⟩)
            · exact ⟨hname.1, hname.2.1, rfl⟩
            · rw [MsgField.declarator, ← hname.2.2]
              exact hline
  cases hlex : lexLine line with
  | error e =>
      refine ⟨e, lexLine_ne_outside hlex, ?_⟩
      rw [parseLine, splitTokens_eq (Nat.le_refl _), hlex]
      rfl
  | ok r =>
      have hform := lexLine_iff.mp hlex
      generalize r.1 = tokens at hform
      generalize r.2 = cnt at hform
      cases hform with
      | blank h => exact absurd h (hblank _)
      | plain ht hn h => exact htokens (.plain ht hn h) (by decide) ht hn (.inl ⟨h, rfl⟩)
      | quoted ht hn h => exact htokens (.quoted ht hn h) (by decide) ht hn (.inr h)

end Buffers

/-! ### The text -/

section Runs
variable {line last rest : List Byte} {lines : List (List Byte)} {fs : List MsgField}
  {st : ParseState} {fuel : Nat}

theorem parseMsgs_last (hlast : newline ∉ last) : parseMsgs (fuel + 1) last st = some (.ok st) := by
  have hdrop : last.dropWhile (· ≠ newline) = [] := by
    refine List.dropWhile_eq_nil_iff.mpr fun b hb => ?_
    exact decide_eq_true fun h => hlast (h ▸ hb)
  rw [parseMsgs, hdrop]

theorem parseMsgs_line (hline : newline ∉ line) :
    parseMsgs (fuel + 1) (line ++ newline :: rest) st =
      if line = [] then parseMsgs fuel rest st
      else match parseLine line with
        | .error e => some (.error e)
        | .ok none => parseMsgs fuel rest st
        | .ok (some v) => parseMsgs fuel rest (st.add v) := by
  have hall : ∀ b ∈ line, decide (b ≠ newline) = true :=
    fun b hb => decide_eq_true fun h => hline (h ▸ hb)
  have htake : (line ++ newline :: rest).takeWhile (· ≠ newline) = line := by
    rw [List.takeWhile_append_of_pos hall]
    exact List.append_nil line
  have hdrop : (line ++ newline :: rest).dropWhile (· ≠ newline) = newline :: rest := by
    rw [List.dropWhile_append_of_pos hall]
    rfl
  rw [parseMsgs, hdrop, htake]
  cases line with
  | nil => rfl
  | cons c line => rfl

/-- What the loop makes of the lines: their fields, an overrun or a rejected line. -/
inductive Parsed (lines : List (List Byte)) (st : ParseState) : Except MsgError ParseState → Prop
  | whole {fs : List MsgField} {st' : ParseState} (hfs : Lists MsgField.Accepted lines fs)
      (hroom : ∀ f ∈ fs, f.HasRoom) (vs : List MsgVarEntry)
      (hlist : st'.msgVarList = st.msgVarList ++ vs)
      (hvs : List.Forall₂ (fun v f => ∃ size, v = f.buffers size ∧ f.Sized size) vs fs)
      (hdesc : st'.descLen = fs.foldl (fun _ f => f.description.length) st.descLen) :
      Parsed lines st (.ok st')
  | overrun {pre : List (List Byte)} {fs : List MsgField} {f : MsgField} (hpre : pre <+: lines)
      (hfs : Lists MsgField.Accepted pre fs) (hf : f ∈ fs) (hroom : ¬ f.HasRoom) :
      Parsed lines st (.error .outside)
  | rejected {pre : List (List Byte)} {line : List Byte} {fs : List MsgField} {e : MsgError}
      (hpre : pre ++ [line] <+: lines) (hfs : Lists MsgField.Accepted pre fs)
      (hroom : ∀ f ∈ fs, f.HasRoom) (hblank : ∀ k, line ≠ spaces k)
      (hfield : ∀ f : MsgField, ¬ f.Accepted line) (he : e ≠ .outside) : Parsed lines st (.error e)

theorem Parsed.blank {r : Except MsgError ParseState} (k : Nat) (h : Parsed lines st r) :
    Parsed (spaces k :: lines) st r := by
  cases h with
  | whole hfs hroom vs hlist hvs hdesc => exact .whole (.blank k hfs) hroom vs hlist hvs hdesc
  | overrun hpre hfs hf hroom =>
      exact .overrun (List.cons_prefix_cons.mpr ⟨rfl, hpre⟩) (.blank k hfs) hf hroom
  | rejected hpre hfs hroom hblank hfield he =>
      exact .rejected (List.cons_prefix_cons.mpr ⟨rfl, hpre⟩) (.blank k hfs) hroom hblank hfield he

theorem Parsed.field {r : Except MsgError ParseState} {f : MsgField} (hf : f.Accepted line)
    (hroom : f.HasRoom) {size : Nat} (hsize : f.Sized size)
    (h : Parsed lines (st.add (f.buffers size, f.description.length)) r) :
    Parsed (line :: lines) st r := by
  have hrooms : ∀ {fs : List MsgField}, (∀ g ∈ fs, g.HasRoom) → ∀ g ∈ f :: fs, g.HasRoom := by
    intro fs hfs g hg
    obtain rfl | hg := List.mem_cons.mp hg
    · exact hroom
    · exact hfs g hg
  cases h with
  | whole hfs hroom' vs hlist hvs hdesc =>
      refine .whole (.field hf.2 hf hfs) (hrooms hroom') (f.buffers size :: vs) ?_
        (.cons ⟨size, rfl, hsize⟩ hvs) hdesc
      rw [hlist, ParseState.add, List.append_assoc]
      rfl
  | overrun hpre hfs hg hroom' =>
      exact .overrun (List.cons_prefix_cons.mpr ⟨rfl, hpre⟩) (.field hf.2 hf hfs)
        (List.mem_cons_of_mem _ hg) hroom'
  | rejected hpre hfs hroom' hblank hfield he =>
      exact .rejected (List.cons_prefix_cons.mpr ⟨rfl, hpre⟩) (.field hf.2 hf hfs) (hrooms hroom')
        hblank hfield he

theorem parseMsgs_text (hlines : ∀ line ∈ lines, newline ∉ line ∧ 0#8 ∉ line) (hlast : newline ∉ last)
    (hfuel : lines.length < fuel) (st : ParseState) :
    ∃ r, parseMsgs fuel (messageText lines last) st = some r ∧ Parsed lines st r := by
  induction lines generalizing fuel st with
  | nil =>
      obtain ⟨fuel, rfl⟩ := Nat.exists_eq_add_one_of_ne_zero (Nat.ne_of_gt hfuel)
      exact ⟨.ok st, parseMsgs_last hlast, .whole .nil (fun _ hf => absurd hf List.not_mem_nil) []
        (List.append_nil _).symm .nil rfl⟩
  | cons line lines ih =>
      obtain ⟨fuel, rfl⟩ := Nat.exists_eq_add_one_of_ne_zero (Nat.ne_of_gt (Nat.zero_lt_of_lt hfuel))
      have hrest := fun l hl => hlines l (List.mem_cons_of_mem _ hl)
      have hfuel' : lines.length < fuel := Nat.lt_of_succ_lt_succ hfuel
      obtain ⟨hnl, hnul⟩ := hlines line List.mem_cons_self
      have htext : messageText (line :: lines) last = line ++ newline :: messageText lines last := by
        rw [messageText, List.flatMap_cons, List.append_assoc, List.append_assoc]
        rfl
      rw [htext, parseMsgs_line hnl]
      by_cases hblank : ∃ k, line = spaces k
      · obtain ⟨k, rfl⟩ := hblank
        obtain ⟨r, hr, hparsed⟩ := ih hrest hfuel' st
        refine ⟨r, ?_, hparsed.blank k⟩
        split
        · exact hr
        · rw [parseLine_blank]
          exact hr
      · have hne : line ≠ [] := fun h => hblank ⟨0, h⟩
        rw [if_neg hne]
        by_cases hfield : ∃ f : MsgField, f.Accepted line
        · obtain ⟨f, hf⟩ := hfield
          rw [parseLine_accepted hf hnul]
          by_cases hroom : f.HasRoom
          · obtain ⟨r, hr, hparsed⟩ :=
              ih hrest hfuel' (st.add (f.buffers line.length, f.description.length))
            rw [if_pos hroom]
            exact ⟨r, hr, hparsed.field hf hroom (hf.2.sized hnul)⟩
          · rw [if_neg hroom]
            exact ⟨.error .outside, rfl, .overrun (List.cons_prefix_cons.mpr ⟨rfl, List.nil_prefix⟩)
              (.field hf.2 hf .nil) List.mem_cons_self hroom⟩
        · have hnone : ∀ f : MsgField, ¬ f.Accepted line := fun f hf => hfield ⟨f, hf⟩
          have hspaces : ∀ k, line ≠ spaces k := fun k hk => hblank ⟨k, hk⟩
          obtain ⟨e, he, herr⟩ := parseLine_rejected hspaces hnone hnul
          have hpre : [] ++ [line] <+: line :: lines :=
            List.cons_prefix_cons.mpr ⟨rfl, List.nil_prefix⟩
          rw [herr]
          exact ⟨.error e, rfl, .rejected hpre .nil (fun _ hf => absurd hf List.not_mem_nil) hspaces
            hnone he⟩

end Runs

/-! ### The output -/

section Output
variable {vs : List MsgVarEntry} {fs gs : List MsgField} {f : MsgField} {st : ParseState}
  {msgName : List Byte} {msgCnt : Nat} {lines : List (List Byte)} {last : List Byte}

theorem mapM_varName
    (hvs : List.Forall₂ (fun v f => ∃ size, v = f.buffers size ∧ f.Sized size) vs fs) :
    (vs.mapM fun v => string v.varName) = .ok (fs.map MsgField.varName) := by
  induction hvs with
  | nil => rfl
  | cons hv _ ih =>
      obtain ⟨size, rfl, hsize⟩ := hv
      have hname := string_pad hsize.nul.2.1 hsize.varName
      rw [List.mapM_cons, MsgField.buffers, hname, ih]
      rfl

theorem mapM_field
    (hvs : List.Forall₂ (fun v f => ∃ size, v = f.buffers size ∧ f.Sized size) vs fs)
    (hroom : ∀ f ∈ fs, f.HasRoom) :
    vs.mapM MsgVarEntry.field =
      if ∀ f ∈ fs, f.cType.length ≤ f.declarator.length then .ok fs else .error .outside := by
  induction hvs with
  | nil => exact (if_pos fun _ hf => absurd hf List.not_mem_nil).symm
  | @cons v f vs fs hv _ ih =>
      obtain ⟨size, rfl, hsize⟩ := hv
      have hrest := ih fun g hg => hroom g (List.mem_cons_of_mem _ hg)
      have hcons : (∀ g ∈ f :: fs, g.cType.length ≤ g.declarator.length) ↔
          f.cType.length ≤ f.declarator.length ∧ ∀ g ∈ fs, g.cType.length ≤ g.declarator.length :=
        List.forall_mem_cons
      rw [List.mapM_cons, hsize.field (hroom f List.mem_cons_self), hrest]
      by_cases hf : f.cType.length ≤ f.declarator.length
      · rw [if_pos hf]
        by_cases hfs : ∀ g ∈ fs, g.cType.length ≤ g.declarator.length
        · rw [if_pos hfs, if_pos (hcons.mpr ⟨hf, hfs⟩)]
          rfl
        · rw [if_neg hfs, if_neg fun h => hfs (hcons.mp h).2]
          rfl
      · rw [if_neg hf, if_neg fun h => hf (hcons.mp h).1]
        rfl

theorem varDuplicated_iff {names : List (List Byte)} :
    varDuplicated names = true ↔ ¬ names.Nodup := by
  have hcount : ∀ name, (names.countP fun name' => decide (name' = name)) = names.count name :=
    fun name => List.countP_congr fun a _ => by rw [decide_eq_true_eq, beq_iff_eq]
  rw [varDuplicated, List.any_eq_true, List.nodup_iff_count, not_forall]
  constructor
  · rintro ⟨name, -, h⟩
    rw [decide_eq_true_eq, hcount] at h
    exact ⟨name, Nat.not_le.mpr h⟩
  · rintro ⟨name, h⟩
    have hlt := Nat.not_le.mp h
    refine ⟨name, List.count_pos_iff.mp (Nat.zero_lt_of_lt hlt), ?_⟩
    rwa [decide_eq_true_eq, hcount]

theorem foldl_desc_pos :
    0 < fs.foldl (fun _ f => f.description.length) 0 ↔
      ∃ f, fs.getLast? = some f ∧ f.description ≠ [] := by
  obtain rfl | ⟨init, f, rfl⟩ := List.eq_nil_or_concat' fs
  · constructor
    · intro h
      exact absurd h (Nat.lt_irrefl 0)
    · rintro ⟨_, h, _⟩
      cases h
  · rw [List.foldl_append, List.getLast?_append]
    constructor
    · intro h
      exact ⟨f, rfl, List.length_pos_iff.mp h⟩
    · rintro ⟨g, hg, hne⟩
      cases hg
      exact List.length_pos_iff.mpr hne

theorem declarations_length (hne : fs ≠ []) :
    (fs.flatMap (MsgField.declaration false)).length <
      (fs.flatMap (MsgField.declaration true)).length := by
  have happend : ∀ w a b : List Byte, a.length < b.length → (w ++ a).length < (w ++ b).length := by
    intro w a b h
    rw [List.length_append, List.length_append]
    exact Nat.add_lt_add_left h _
  have hlt : ∀ f : MsgField, (f.declaration false).length < (f.declaration true).length := by
    intro f
    refine happend _ _ _ ?_
    rw [if_neg Bool.false_ne_true, if_pos rfl, List.length_append, List.length_append]
    exact Nat.lt_add_of_pos_left (Nat.add_pos_left (by decide) _)
  induction fs with
  | nil => exact absurd rfl hne
  | cons f fs ih =>
      rw [List.flatMap_cons, List.flatMap_cons, List.length_append, List.length_append]
      obtain rfl | hfs := eq_or_ne fs []
      · exact Nat.add_lt_add_right (hlt f) _
      · exact Nat.add_lt_add (hlt f) (ih hfs)

theorem cHeader_comments (h : cHeader msgName msgCnt false fs = cHeader msgName msgCnt true fs) :
    fs = [] := by
  by_contra hne
  have hlt := declarations_length hne
  unfold cHeader at h
  -- The texts around the declarations are the same, whatever they are.
  generalize ascii = text at h
  simp only [List.append_cancel_right_eq, List.append_cancel_left_eq] at h
  rw [h] at hlt
  exact Nat.lt_irrefl _ hlt

theorem yaml_snoc : yaml msgCnt fs ≠ yaml msgCnt (fs ++ [f]) := by
  intro h
  rw [yaml, yaml, List.flatMap_append, List.append_cancel_left_eq, List.self_eq_append_right,
    List.flatMap_cons, List.flatMap_nil, List.append_nil, MsgField.entry,
    List.append_eq_nil_iff] at h
  exact absurd h.2 (by decide)

theorem generate_eq
    (hvs : List.Forall₂ (fun v f => ∃ size, v = f.buffers size ∧ f.Sized size) st.msgVarList fs)
    (hroom : ∀ f ∈ fs, f.HasRoom) :
    generate msgName msgCnt st =
      if (fs.map MsgField.varName).Nodup then
        if ∀ f ∈ fs, f.cType.length ≤ f.declarator.length then
          .ok ⟨cHeader msgName msgCnt (decide (0 < st.descLen)) fs, yaml msgCnt fs⟩
        else .error .outside
      else .error .duplicated := by
  rw [generate, mapM_varName hvs, ok_bind, mapM_field hvs hroom]
  by_cases hnodup : (fs.map MsgField.varName).Nodup
  · rw [if_neg (varDuplicated_iff.not.mpr (not_not.mpr hnodup)), if_pos hnodup]
    split <;> rfl
  · rw [if_pos (varDuplicated_iff.mpr hnodup), if_neg hnodup]

theorem desc_of_comments
    (h : cHeader msgName msgCnt (decide (0 < fs.foldl (fun _ f => f.description.length) 0)) fs =
      cHeader msgName msgCnt true fs) :
    (∃ f, fs.getLast? = some f ∧ f.description ≠ []) ∨ ∀ f ∈ fs, f.description = [] := by
  by_cases hpos : 0 < fs.foldl (fun _ f => f.description.length) 0
  · exact .inl (foldl_desc_pos.mp hpos)
  · rw [decide_eq_false hpos] at h
    rw [cHeader_comments h]
    exact .inr fun _ hf => absurd hf List.not_mem_nil

end Output

/-! ### The messages that are read as they should be -/

section Meets
variable {fs gs : List MsgField} {f : MsgField} {msgName fileName last : List Byte} {msgCnt : Nat}
  {lines pre : List (List Byte)} {line : List Byte} {e : MsgError}

theorem exists_messageText (text : List Byte) :
    ∃ lines last, text = messageText lines last ∧ (∀ line ∈ lines, newline ∉ line) ∧
      newline ∉ last := by
  induction text with
  | nil => exact ⟨[], [], rfl, fun _ hl => absurd hl List.not_mem_nil, List.not_mem_nil⟩
  | cons c text ih =>
      obtain ⟨lines, last, rfl, hlines, hlast⟩ := ih
      by_cases hc : c = newline
      · refine ⟨[] :: lines, last, by rw [hc]; rfl, List.forall_mem_cons.mpr ⟨?_, hlines⟩, hlast⟩
        exact List.not_mem_nil
      · have hcons : ∀ {l : List Byte}, newline ∉ l → newline ∉ c :: l := by
          intro l hl
          rw [List.mem_cons, not_or]
          exact ⟨Ne.symm hc, hl⟩
        cases lines with
        | nil => exact ⟨[], c :: last, rfl, hlines, hcons hlast⟩
        | cons line lines =>
            obtain ⟨hline, hlines⟩ := List.forall_mem_cons.mp hlines
            exact ⟨(c :: line) :: lines, last, rfl,
              List.forall_mem_cons.mpr ⟨hcons hline, hlines⟩, hlast⟩

theorem length_le_messageText : lines.length ≤ (messageText lines last).length := by
  induction lines with
  | nil => exact Nat.zero_le _
  | cons line lines ih =>
      rw [messageText, List.length_append] at ih
      rw [messageText, List.flatMap_cons, List.length_append, List.length_append,
        List.length_append, List.length_singleton, List.length_cons]
      omega

theorem Conforming.accepted (h : Conforming (lines ++ [last])) :
    ∃ fs, Lists MsgField.Accepted lines fs ∧ (fs.map MsgField.varName).Nodup := by
  obtain ⟨fs, hfs, hnodup⟩ := h
  obtain ⟨gs, hs, rfl, hgs, -⟩ := hfs.of_append
  rw [List.map_append] at hnodup
  exact ⟨gs, hgs.mono fun _ _ => MsgField.Documented.accepted,
    hnodup.sublist (List.sublist_append_left _ _)⟩

theorem meets_error (he : e ≠ .outside) (h : ¬ Conforming (lines ++ [last])) :
    Meets msgName msgCnt lines last (some (.error e)) := by
  refine ⟨⟨_, rfl, fun heq => he (Except.error.inj heq)⟩, ?_, ?_⟩
  · constructor
    · rintro ⟨out, hout⟩
      cases hout
    · exact fun hc => absurd hc h
  · rintro out hout
    cases hout

theorem not_meets_outside : ¬ Meets msgName msgCnt lines last (some (.error .outside)) := by
  intro h
  obtain ⟨r, hr, hne⟩ := h.safe
  cases hr
  exact hne rfl

theorem room_of_fields (hfs : Lists MsgField.Accepted lines fs) (hroom : ∀ f ∈ fs, f.HasRoom) :
    ∀ pre gs, pre <+: lines → Lists MsgField.Accepted pre gs →
      ∀ f ∈ gs, f.cType.length ≤ f.declarator.length + 1 :=
  fun _ _ hpre hgs f hf => hroom f ((hfs.start hgs hpre).subset hf)

theorem room_of_rejected (hpre : pre ++ [line] <+: lines) (hfs : Lists MsgField.Accepted pre fs)
    (hroom : ∀ f ∈ fs, f.HasRoom) (hblank : ∀ k, line ≠ spaces k)
    (hfield : ∀ f : MsgField, ¬ f.Accepted line) :
    (∀ pre gs, pre <+: lines → Lists MsgField.Accepted pre gs →
      ∀ f ∈ gs, f.cType.length ≤ f.declarator.length + 1) ∧
      ¬ ∃ gs, Lists MsgField.Accepted lines gs := by
  have hstop : ∀ pre' gs, pre ++ [line] <+: pre' → ¬ Lists MsgField.Accepted pre' gs := by
    intro pre' gs hstart hgs
    obtain ⟨hs, hhs⟩ := hgs.of_start hstart
    obtain ⟨-, ls, -, -, hls⟩ := hhs.of_append
    cases hls with
    | blank k _ => exact hblank k rfl
    | field _ hf _ => exact hfield _ hf
  have hnone : ¬ ∃ gs, Lists MsgField.Accepted lines gs := by
    rintro ⟨gs, hgs⟩
    exact hstop lines gs hpre hgs
  refine ⟨fun pre' gs hpre' hgs f hf => ?_, hnone⟩
  -- The lines that are read end before the rejected one.
  have hle : pre' <+: pre := by
    obtain h | h := List.prefix_or_prefix_of_prefix hpre' hpre
    · obtain h | h := List.prefix_concat_iff.mp h
      · exact absurd hgs (hstop pre' gs (h ▸ List.prefix_rfl))
      · exact h
    · exact absurd hgs (hstop pre' gs h)
  exact room_of_fields hfs hroom pre' gs hle hgs f hf

theorem meets_fields_iff (hfs : Lists MsgField.Accepted lines fs)
    (hnodup : (fs.map MsgField.varName).Nodup) :
    Meets msgName msgCnt lines last (some (.ok
      ⟨cHeader msgName msgCnt (decide (0 < fs.foldl (fun _ f => f.description.length) 0)) fs,
        yaml msgCnt fs⟩)) ↔
      (∃ k, last = spaces k) ∧ (∀ f ∈ fs, f.cType ∈ supportTypes) ∧
      ((∃ f, fs.getLast? = some f ∧ f.description ≠ []) ∨ ∀ f ∈ fs, f.description = []) := by
  constructor
  · intro h
    obtain ⟨all, hall, comments, hout, hcomments⟩ := h.lists _ rfl
    obtain ⟨gs, hs, rfl, hgs, hhs⟩ := hall.of_append
    have heq : gs = fs := hgs.unique hfs
    subst heq
    have htypes : ∀ {lines gs}, Lists MsgField.Documented lines gs →
        ∀ f ∈ gs, f.cType ∈ supportTypes := by
      intro lines gs hgs
      induction hgs with
      | nil => exact fun _ hf => absurd hf List.not_mem_nil
      | blank _ _ ih => exact ih
      | field _ hP _ ih => exact List.forall_mem_cons.mpr ⟨hP.1, ih⟩
    rw [Output.mk.injEq] at hout
    cases hhs with
    | blank k hhs =>
        cases hhs
        rw [List.append_nil] at hout hcomments
        refine ⟨⟨k, rfl⟩, htypes hgs, ?_⟩
        obtain rfl | hdesc := hcomments
        · exact desc_of_comments hout.1
        · exact .inr hdesc
    | field _ _ hhs =>
        cases hhs
        exact absurd hout.2 yaml_snoc
  · rintro ⟨⟨k, rfl⟩, htypes, hdesc⟩
    have hdoc : Lists MsgField.Documented lines fs := by
      clear hnodup hdesc
      induction hfs with
      | nil => exact .nil
      | blank k _ ih => exact .blank k (ih htypes)
      | field hf hP _ ih =>
          obtain ⟨htype, htypes⟩ := List.forall_mem_cons.mp htypes
          exact .field hf ⟨htype, hf⟩ (ih htypes)
    have hlists : Lists MsgField.Documented (lines ++ [spaces k]) fs := by
      have happend := hdoc.append (.blank k .nil)
      rwa [List.append_nil] at happend
    have hout : Output.Lists
        ⟨cHeader msgName msgCnt (decide (0 < fs.foldl (fun _ f => f.description.length) 0)) fs,
          yaml msgCnt fs⟩ msgName msgCnt fs := by
      refine ⟨_, rfl, ?_⟩
      rw [decide_eq_true_eq, foldl_desc_pos]
      exact hdesc
    refine ⟨⟨_, rfl, ?_⟩, ⟨fun _ => ⟨fs, hlists, hnodup⟩, fun _ => ⟨_, rfl⟩⟩, ?_⟩
    · intro heq
      cases heq
    · intro out hr
      rw [← Except.ok.inj (Option.some.inj hr)]
      exact ⟨fs, hlists, hout⟩

theorem codegen_meets_iff (hname : getMessageName fileName = .ok msgName)
    (hlines : ∀ line ∈ lines, newline ∉ line ∧ 0#8 ∉ line) (hlast : newline ∉ last) :
    Meets msgName msgCnt lines last (codegen fileName msgCnt (messageText lines last)) ↔
      MessageFits lines last := by
  have hfuel : lines.length < (messageText lines last).length + 1 :=
    Nat.lt_succ_of_le length_le_messageText
  obtain ⟨r, hr, hparsed⟩ := parseMsgs_text hlines hlast hfuel ⟨[], 0⟩
  have hcodegen : codegen fileName msgCnt (messageText lines last) =
      some (r >>= generate msgName msgCnt) := by
    rw [codegen, hname]
    simp only [hr, Option.map_some]
  rw [hcodegen]
  cases hparsed with
  | @overrun pre fs f hpre hfs hf hroom =>
      constructor
      · exact fun h => absurd h not_meets_outside
      · exact fun h => absurd (h.room pre fs hpre hfs f hf) hroom
  | rejected hpre hfs hroom hblank hfield he =>
      obtain ⟨hrooms, hnone⟩ := room_of_rejected hpre hfs hroom hblank hfield
      have hnot : ¬ Conforming (lines ++ [last]) := fun h => hnone (h.accepted.imp fun _ h => h.1)
      constructor
      · exact fun _ => ⟨hrooms, fun gs hgs => absurd ⟨gs, hgs⟩ hnone⟩
      · exact fun _ => meets_error he hnot
  | @whole fs st' hfs hroom vs hlist hvs hdesc =>
      rw [List.nil_append] at hlist
      rw [← hlist] at hvs
      have hrooms := room_of_fields hfs hroom
      rw [ok_bind, generate_eq hvs hroom, hdesc]
      by_cases hnodup : (fs.map MsgField.varName).Nodup
      · rw [if_pos hnodup]
        by_cases hlen : ∀ f ∈ fs, f.cType.length ≤ f.declarator.length
        · rw [if_pos hlen, meets_fields_iff hfs hnodup]
          constructor
          · rintro ⟨hblank, htypes, hcomments⟩
            refine ⟨hrooms, fun gs hgs _ => ?_⟩
            rw [hgs.unique hfs]
            exact ⟨hblank, fun f hf => ⟨htypes f hf, hlen f hf⟩, hcomments⟩
          · intro h
            obtain ⟨hblank, htypes, hcomments⟩ := h.whole fs hfs hnodup
            exact ⟨hblank, fun f hf => (htypes f hf).1, hcomments⟩
        · rw [if_neg hlen]
          constructor
          · exact fun h => absurd h not_meets_outside
          · exact fun h => absurd (fun f hf => ((h.whole fs hfs hnodup).2.1 f hf).2) hlen
      · rw [if_neg hnodup]
        have hnot : ¬ Conforming (lines ++ [last]) := by
          intro h
          obtain ⟨gs, hgs, hgsnodup⟩ := h.accepted
          rw [hgs.unique hfs] at hgsnodup
          exact hnodup hgsnodup
        constructor
        · refine fun _ => ⟨hrooms, fun gs hgs hgsnodup => ?_⟩
          rw [hgs.unique hfs] at hgsnodup
          exact absurd hgsnodup hnodup
        · exact fun _ => meets_error (by decide) hnot

def imuLines : List (List Byte) :=
  [ascii "bool flag \"a\"", ascii "  ", ascii "float gyro[3] \"b\""]

theorem codegen_meets_imu :
    Meets (ascii "imu") 1 imuLines [] (codegen (ascii "imu.msg") 1 (messageText imuLines [])) := by
  have hflag : MsgField.Accepted ⟨ascii "bool", ascii "flag", [], ascii "a"⟩
      (ascii "bool flag \"a\"") := by
    refine ⟨by decide, ⟨by decide, by decide, by decide⟩, ⟨?_, .inl rfl, rfl⟩, .inr ⟨by decide, ?_⟩⟩
    · exact ⟨102#8, ascii "lag", by decide, by decide, by decide⟩
    · exact ⟨ascii "bool flag", 0, 0, ⟨0, 0, by decide⟩, by decide⟩
  have hgyro : MsgField.Accepted ⟨ascii "float", ascii "gyro", ascii "3", ascii "b"⟩
      (ascii "float gyro[3] \"b\"") := by
    refine ⟨by decide, ⟨by decide, by decide, by decide⟩,
      ⟨?_, .inr ⟨by decide, by decide⟩, by decide⟩, .inr ⟨by decide, ?_⟩⟩
    · exact ⟨103#8, ascii "yro", by decide, by decide, by decide⟩
    · exact ⟨ascii "float gyro[3]", 0, 0, ⟨0, 0, by decide⟩, by decide⟩
  have hfs : Lists MsgField.Accepted imuLines
      [⟨ascii "bool", ascii "flag", [], ascii "a"⟩,
        ⟨ascii "float", ascii "gyro", ascii "3", ascii "b"⟩] :=
    .field hflag.2 hflag (.blank 2 (.field hgyro.2 hgyro .nil))
  refine (codegen_meets_iff (by decide) (by decide) (by decide)).mpr ⟨?_, fun gs hgs _ => ?_⟩
  · exact room_of_fields hfs (by decide)
  · rw [hgs.unique hfs]
    exact ⟨⟨0, rfl⟩, by decide, .inl ⟨_, rfl, by decide⟩⟩

/-- `uint32_t t`: the type is copied to two bytes. -/
theorem codegen_not_for_t :
    ¬ Meets (ascii "test") 0 [ascii "uint32_t t"] []
      (codegen (ascii "test.msg") 0 (messageText [ascii "uint32_t t"] [])) := by
  have hrun : codegen (ascii "test.msg") 0 (messageText [ascii "uint32_t t"] []) =
      some (.error .outside) := by
    decide
  rw [hrun]
  exact not_meets_outside

end Meets

end Tenok.Msggen
