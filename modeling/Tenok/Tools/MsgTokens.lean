import Tenok.Common.CString
import Tenok.Lib.Scanner
import Tenok.Lib.Words

/-!
`split_tokens` of `tools/msggen/msggen.c`, against a lexer without buffers, and the lines that this
lexer takes.
-/
namespace Tenok.Msggen

/-- Why a message is not accepted. -/
inductive MsgError
  | unexpectedSyntax
  | notQuoted
  | tooManyArguments
  | nameMissing
  | quoteMissing
  | unknownType
  | illegalName
  | duplicated
  | badMessageName
  /-- A byte outside of an allocated buffer is accessed. -/
  | outside
  deriving DecidableEq, Repr

def quote : Byte := 34#8

/-- `calloc(sizeof(char), n)`. -/
def calloc (n : Nat) : List Byte := List.replicate n 0#8

/-- `buf[i] = c`. -/
def store (buf : List Byte) (i : Nat) (c : Byte) : Except MsgError (List Byte) :=
  if i < buf.length then .ok (buf.set i c) else .error .outside

def string (buf : List Byte) : Except MsgError (List Byte) :=
  match stringAt buf 0 with
  | some s => .ok s
  | none => .error .outside

inductive SplitSteps
  | type
  | varName
  | description
  | overLength
  deriving DecidableEq, Repr

def SplitSteps.next : SplitSteps → SplitSteps
  | type => varName
  | varName => description
  | description | overLength => overLength

structure SplitState where
  step : SplitSteps
  tokenCnt : Nat
  quoteCnt : Nat
  j : Nat
  token : List (List Byte)

/-- `token[token_cnt][j] = c`. -/
def SplitState.storeToken (st : SplitState) (c : Byte) : Except MsgError (List (List Byte)) :=
  match st.token[st.tokenCnt]? with
  | none => .error .outside
  | some buf => do
      let buf ← store buf st.j c
      .ok (st.token.set st.tokenCnt buf)

def splitChar (size i : Nat) (c : Byte) (st : SplitState) : Except MsgError SplitState :=
  match st.step with
  | .type | .varName =>
      if c = space then
        if st.j ≠ 0 then do
          let token ← st.storeToken 0#8
          .ok { st with token, tokenCnt := st.tokenCnt + 1, j := 0, step := st.step.next }
        else .ok st
      else if c = quote then .error .unexpectedSyntax
      else do
        let token ← st.storeToken c
        .ok { st with
          token, j := st.j + 1,
          tokenCnt := if i = size - 1 then st.tokenCnt + 1 else st.tokenCnt }
  | .description =>
      if st.quoteCnt = 0 then
        if c = space then .ok st
        else if c = quote then .ok { st with quoteCnt := st.quoteCnt + 1 }
        else .error .notQuoted
      else if st.quoteCnt = 1 then
        if c = quote then do
          let token ← st.storeToken 0#8
          .ok { st with
            token, quoteCnt := st.quoteCnt + 1, tokenCnt := st.tokenCnt + 1, j := 0,
            step := .overLength }
        else do
          let token ← st.storeToken c
          .ok { st with token, j := st.j + 1 }
      else .ok st
  | .overLength => if c ≠ space then .error .tooManyArguments else .ok st

/-- The loop over what is left of the line from index `i` on. -/
def splitLoop (size : Nat) : List Byte → Nat → SplitState → Except MsgError SplitState
  | [], _, st => .ok st
  | c :: line, i, st => do
      let st ← splitChar size i c st
      splitLoop size line (i + 1) st

def splitTokens (token : List (List Byte)) (line : List Byte) :
    Except MsgError (List (List Byte) × Nat) := do
  let st ← splitLoop line.length line 0 ⟨.type, 0, 0, 0, token⟩
  if st.tokenCnt = 1 then .error .nameMissing
  else if st.step = .description ∧ st.quoteCnt = 1 then .error .quoteMissing
  else .ok (st.token, st.tokenCnt)

/-! ### The lexer -/

/-- What has been read of a line: the type, the name and the description. -/
inductive LexState
  | type (t : List Byte)
  | name (t n : List Byte)
  | afterName (t n : List Byte)
  | desc (t n d : List Byte)
  | done (t n d : List Byte)

namespace LexState

def next : LexState → Byte → Except MsgError LexState
  | .type t, c =>
      if c = space then .ok (if t = [] then .type [] else .name t [])
      else if c = quote then .error .unexpectedSyntax
      else .ok (.type (t ++ [c]))
  | .name t n, c =>
      if c = space then .ok (if n = [] then .name t [] else .afterName t n)
      else if c = quote then .error .unexpectedSyntax
      else .ok (.name t (n ++ [c]))
  | .afterName t n, c =>
      if c = space then .ok (.afterName t n)
      else if c = quote then .ok (.desc t n [])
      else .error .notQuoted
  | .desc t n d, c => if c = quote then .ok (.done t n d) else .ok (.desc t n (d ++ [c]))
  | .done t n d, c => if c ≠ space then .error .tooManyArguments else .ok (.done t n d)

/-- The tokens of a line that ends here, and how many they are. -/
def finish : LexState → Except MsgError (List (List Byte) × Nat)
  | .type t => if t = [] then .ok ([[], [], []], 0) else .error .nameMissing
  | .name t n => if n = [] then .error .nameMissing else .ok ([t, n, []], 2)
  | .afterName t n => .ok ([t, n, []], 2)
  | .desc _ _ _ => .error .quoteMissing
  | .done t n d => .ok ([t, n, d], 3)

end LexState

def lexRun (st : LexState) (line : List Byte) : Except MsgError LexState := line.foldlM LexState.next st

def lexLine (line : List Byte) : Except MsgError (List (List Byte) × Nat) := do
  let st ← lexRun (.type []) line
  st.finish

/-! ### The buffers -/

section Buffers
variable {size len i : Nat} {c : Byte} {ls ls' : LexState} {t n d line u : List Byte}
  {e : MsgError}
  {α β : Type}

@[simp] theorem ok_bind (a : α) (f : α → Except MsgError β) : (Except.ok a >>= f) = f a := rfl

/-- A token in a zeroed buffer for up to `size` characters. -/
def pad (size : Nat) (t : List Byte) : List Byte := t ++ List.replicate (size + 1 - t.length) 0#8

theorem length_pad (h : t.length ≤ size) : (pad size t).length = size + 1 := by
  rw [pad, List.length_append, List.length_replicate]
  omega

theorem pad_eq (h : t.length ≤ size) : pad size t = t ++ 0#8 :: List.replicate (size - t.length) 0#8 := by
  rw [pad, show size + 1 - t.length = size - t.length + 1 by omega, List.replicate_succ]

theorem string_pad (ht : 0#8 ∉ t) (h : t.length ≤ size) : string (pad size t) = .ok t := by
  have hat : stringAt ([] ++ (t ++ 0#8 :: List.replicate (size - t.length) 0#8)) 0 = some t :=
    stringAt_append ht rfl
  rw [List.nil_append, ← pad_eq h] at hat
  rw [string, hat]

theorem store_pad (h : t.length ≤ size) : store (pad size t) t.length c = .ok (pad size (t ++ [c])) := by
  rw [store, length_pad h, if_pos (Nat.lt_succ_of_le h), pad_eq h,
    List.set_append_right _ _ (Nat.le_refl _), Nat.sub_self, List.set_cons_zero, pad,
    List.length_append, List.length_singleton, Nat.add_sub_add_right, List.append_assoc]
  rfl

theorem store_pad_end (h : t.length ≤ size) : store (pad size t) t.length 0#8 = .ok (pad size t) := by
  rw [store, length_pad h, if_pos (Nat.lt_succ_of_le h), pad_eq h,
    List.set_append_right _ _ (Nat.le_refl _), Nat.sub_self, List.set_cons_zero]

namespace LexState

/-- The state of `split_tokens`. At the end of the line the last token is counted. -/
def state (size : Nat) (last : Bool) : LexState → SplitState
  | .type t =>
      ⟨.type, if last ∧ t ≠ [] then 1 else 0, 0, t.length, [pad size t, pad size [], pad size []]⟩
  | .name t n =>
      ⟨.varName, if last ∧ n ≠ [] then 2 else 1, 0, n.length, [pad size t, pad size n, pad size []]⟩
  | .afterName t n => ⟨.description, 2, 0, 0, [pad size t, pad size n, pad size []]⟩
  | .desc t n d => ⟨.description, 2, 1, d.length, [pad size t, pad size n, pad size d]⟩
  | .done t n d => ⟨.overLength, 3, 2, 0, [pad size t, pad size n, pad size d]⟩

def current : LexState → Nat
  | .type t => t.length
  | .name _ n => n.length
  | .desc _ _ d => d.length
  | .afterName _ _ | .done _ _ _ => 0

theorem current_next (h : ls.next c = .ok ls') : ls'.current ≤ ls.current + 1 := by
  have hif : ∀ {q : Prop} [Decidable q] {x : LexState}, x.current = 0 → ∀ {y}, y.current = 0 →
      (if q then x else y).current ≤ ls.current + 1 := by
    intro q _ x hx y hy
    split
    · rw [hx]
      exact Nat.zero_le _
    · rw [hy]
      exact Nat.zero_le _
  cases ls with
  | type t =>
      rw [next] at h
      split at h
      · cases h
        exact hif rfl rfl
      · split at h
        · cases h
        · cases h
          exact Nat.le_of_eq List.length_append
  | name t n =>
      rw [next] at h
      split at h
      · cases h
        exact hif rfl rfl
      · split at h
        · cases h
        · cases h
          exact Nat.le_of_eq List.length_append
  | afterName t n =>
      rw [next] at h
      split at h
      · cases h
        exact Nat.zero_le _
      · split at h
        · cases h
          exact Nat.zero_le _
        · cases h
  | desc t n d =>
      rw [next] at h
      split at h
      · cases h
        exact Nat.zero_le _
      · cases h
        exact Nat.le_of_eq List.length_append
  | done t n d =>
      rw [next] at h
      split at h
      · cases h
      · cases h
        exact Nat.zero_le _

end LexState

theorem quote_ne_space : quote ≠ space := by decide

theorem splitChar_eq (h : ls.current ≤ size) :
    splitChar len i c (ls.state size false) =
      (ls.next c).map fun ls => ls.state size (decide (i = len - 1)) := by
  cases ls with
  | type t =>
      obtain rfl | hspace := eq_or_ne c space
      · obtain rfl | ht := eq_or_ne t []
        · simp [splitChar, LexState.next, LexState.state, Except.map]
        · simp [splitChar, LexState.next, LexState.state, Except.map, ht, SplitState.storeToken,
            store_pad_end h, SplitSteps.next]
      · obtain rfl | hquote := eq_or_ne c quote
        · simp [splitChar, LexState.next, LexState.state, Except.map, quote_ne_space]
        · simp [splitChar, LexState.next, LexState.state, Except.map, hspace, hquote,
            SplitState.storeToken, store_pad h]
  | name t n =>
      obtain rfl | hspace := eq_or_ne c space
      · obtain rfl | hn := eq_or_ne n []
        · simp [splitChar, LexState.next, LexState.state, Except.map]
        · simp [splitChar, LexState.next, LexState.state, Except.map, hn, SplitState.storeToken,
            store_pad_end h, SplitSteps.next]
      · obtain rfl | hquote := eq_or_ne c quote
        · simp [splitChar, LexState.next, LexState.state, Except.map, quote_ne_space]
        · simp [splitChar, LexState.next, LexState.state, Except.map, hspace, hquote,
            SplitState.storeToken, store_pad h]
  | afterName t n =>
      obtain rfl | hspace := eq_or_ne c space
      · simp [splitChar, LexState.next, LexState.state, Except.map]
      · obtain rfl | hquote := eq_or_ne c quote
        · simp [splitChar, LexState.next, LexState.state, Except.map, quote_ne_space]
        · simp [splitChar, LexState.next, LexState.state, Except.map, hspace, hquote]
  | desc t n d =>
      obtain rfl | hquote := eq_or_ne c quote
      · simp [splitChar, LexState.next, LexState.state, Except.map, SplitState.storeToken,
          store_pad_end h]
      · simp [splitChar, LexState.next, LexState.state, Except.map, hquote, SplitState.storeToken,
          store_pad h]
  | done t n d =>
      obtain rfl | hspace := eq_or_ne c space
      · simp [splitChar, LexState.next, LexState.state, Except.map]
      · simp [splitChar, LexState.next, LexState.state, Except.map, hspace]

theorem splitLoop_eq (hne : line ≠ []) (hi : i + line.length = len) (hcur : ls.current ≤ i)
    (hlen : len ≤ size) :
    splitLoop len line i (ls.state size false) = (lexRun ls line).map (·.state size true) := by
  induction line generalizing i ls with
  | nil => exact absurd rfl hne
  | cons c line ih =>
      rw [List.length_cons] at hi
      rw [splitLoop, splitChar_eq (Nat.le_trans hcur (by omega)), lexRun, List.foldlM_cons]
      cases hnext : ls.next c with
      | error e => rfl
      | ok ls' =>
          rw [Except.map, ok_bind, ok_bind]
          cases line with
          | nil =>
              rw [decide_eq_true (by rw [List.length_nil] at hi; omega)]
              rfl
          | cons c' line =>
              rw [decide_eq_false (by rw [List.length_cons] at hi; omega)]
              exact ih (List.cons_ne_nil _ _) (by omega)
                (Nat.le_trans (LexState.current_next hnext) (Nat.succ_le_succ hcur))

theorem splitLoop_start (h : line.length ≤ size) :
    splitLoop line.length line 0 ⟨.type, 0, 0, 0, List.replicate 3 (calloc (size + 1))⟩ =
      (lexRun (.type []) line).map (·.state size true) := by
  cases line with
  | nil => rfl
  | cons c line =>
      have hcur : (LexState.type []).current ≤ 0 := Nat.le_refl 0
      exact splitLoop_eq (List.cons_ne_nil c line) (Nat.zero_add _) hcur h

theorem splitTokens_eq (h : line.length ≤ size) :
    splitTokens (List.replicate 3 (calloc (size + 1))) line =
      (lexLine line).map fun r => (r.1.map (pad size), r.2) := by
  rw [splitTokens, splitLoop_start h, lexLine]
  cases hrun : lexRun (.type []) line with
  | error e => rfl
  | ok ls =>
      rw [Except.map, ok_bind, ok_bind]
      cases ls with
      | type t =>
          by_cases ht : t = [] <;> simp [LexState.state, LexState.finish, Except.map, ht]
      | name t n =>
          by_cases hn : n = [] <;> simp [LexState.state, LexState.finish, Except.map, hn]
      | afterName t n | desc t n d | done t n d =>
          simp [LexState.state, LexState.finish, Except.map]

end Buffers

/-! ### The lines -/

/-- A type or a name: no byte of it ends a token. -/
structure IsToken (t : List Byte) : Prop where
  ne_nil : t ≠ []
  space : space ∉ t
  quote : quote ∉ t

def spaces (n : Nat) : List Byte := List.replicate n space

def Heads (t n head : List Byte) : Prop := ∃ a b, head = spaces a ++ t ++ spaces (b + 1) ++ n

def Plain (t n line : List Byte) : Prop := ∃ head m, Heads t n head ∧ line = head ++ spaces m

def Quoted (t n d line : List Byte) : Prop :=
  quote ∉ d ∧ ∃ head m k, Heads t n head ∧
    line = head ++ (spaces (m + 1) ++ quote :: d ++ quote :: spaces k)

/-- The lines that are read, with their tokens. -/
inductive Form (line : List Byte) : List (List Byte) → Nat → Prop
  | blank {k : Nat} (h : line = spaces k) : Form line [[], [], []] 0
  | plain {t n : List Byte} (ht : IsToken t) (hn : IsToken n) (h : Plain t n line) :
      Form line [t, n, []] 2
  | quoted {t n d : List Byte} (ht : IsToken t) (hn : IsToken n) (h : Quoted t n d line) :
      Form line [t, n, d] 3

section Lines
variable {c : Byte} {ls ls' : LexState} {t n d line head l : List Byte} {e : MsgError} {k : Nat}

namespace LexState

def Reads (line : List Byte) : LexState → Prop
  | .type t => (t = [] ∨ IsToken t) ∧ ∃ a, line = spaces a ++ t
  | .name t n => IsToken t ∧ (n = [] ∨ IsToken n) ∧ Heads t n line
  | .afterName t n => IsToken t ∧ IsToken n ∧ ∃ head m, Heads t n head ∧ line = head ++ spaces (m + 1)
  | .desc t n d => IsToken t ∧ IsToken n ∧ quote ∉ d ∧
      ∃ head m, Heads t n head ∧ line = head ++ (spaces (m + 1) ++ quote :: d)
  | .done t n d => IsToken t ∧ IsToken n ∧ quote ∉ d ∧
      ∃ head m k, Heads t n head ∧ line = head ++ (spaces (m + 1) ++ quote :: d ++ quote :: spaces k)

end LexState

theorem isToken_snoc (h : t = [] ∨ IsToken t) (hspace : c ≠ space) (hquote : c ≠ quote) :
    IsToken (t ++ [c]) := by
  have hsnoc : ∀ b, b ∉ t → c ≠ b → b ∉ t ++ [c] := by
    intro b hb hc hmem
    obtain hmem | hmem := List.mem_append.mp hmem
    · exact hb hmem
    · exact hc (List.mem_singleton.mp hmem).symm
  have hfree : ∀ b, (IsToken t → b ∉ t) → b ∉ t := by
    intro b hb
    obtain rfl | ht := h
    · exact List.not_mem_nil
    · exact hb ht
  exact ⟨List.concat_ne_nil c t, hsnoc _ (hfree _ IsToken.space) hspace,
    hsnoc _ (hfree _ IsToken.quote) hquote⟩

theorem spaces_snoc (k : Nat) : spaces k ++ [space] = spaces (k + 1) := List.replicate_succ'.symm

theorem Heads.snoc (h : Heads t n head) (c : Byte) : Heads t (n ++ [c]) (head ++ [c]) := by
  obtain ⟨a, b, rfl⟩ := h
  exact ⟨a, b, List.append_assoc _ n [c]⟩

theorem LexState.Reads.snoc (hread : ls.Reads line) (h : ls.next c = .ok ls') :
    ls'.Reads (line ++ [c]) := by
  cases ls with
  | type t =>
      obtain ⟨ht, a, rfl⟩ := hread
      rw [next] at h
      split at h
      next hspace =>
        subst hspace
        cases h
        split
        next hnil =>
          rw [hnil, List.append_nil, spaces_snoc]
          exact ⟨.inl rfl, a + 1, (List.append_nil _).symm⟩
        next hnil => exact ⟨ht.resolve_left hnil, .inl rfl, a, 0, (List.append_nil _).symm⟩
      next hspace =>
        split at h
        · cases h
        next hquote =>
          cases h
          exact ⟨.inr (isToken_snoc ht hspace hquote), a, List.append_assoc _ t [c]⟩
  | name t n =>
      obtain ⟨ht, hn, hhead⟩ := hread
      rw [next] at h
      split at h
      next hspace =>
        subst hspace
        cases h
        split
        next hnil =>
          obtain ⟨a, b, rfl⟩ := hhead
          rw [hnil, List.append_nil, List.append_assoc, spaces_snoc]
          exact ⟨ht, .inl rfl, a, b + 1, (List.append_nil _).symm⟩
        next hnil => exact ⟨ht, hn.resolve_left hnil, _, 0, hhead, rfl⟩
      next hspace =>
        split at h
        · cases h
        next hquote =>
          cases h
          exact ⟨ht, .inr (isToken_snoc hn hspace hquote), hhead.snoc c⟩
  | afterName t n =>
      obtain ⟨ht, hn, head, m, hhead, rfl⟩ := hread
      rw [next] at h
      split at h
      next hspace =>
        subst hspace
        cases h
        exact ⟨ht, hn, head, m + 1, hhead, by rw [List.append_assoc, spaces_snoc]⟩
      · split at h
        next hquote =>
          subst hquote
          cases h
          exact ⟨ht, hn, List.not_mem_nil, head, m, hhead, List.append_assoc _ _ _⟩
        · cases h
  | desc t n d =>
      obtain ⟨ht, hn, hd, head, m, hhead, rfl⟩ := hread
      rw [next] at h
      split at h
      next hquote =>
        subst hquote
        cases h
        exact ⟨ht, hn, hd, head, m, 0, hhead, List.append_assoc _ _ _⟩
      next hquote =>
        cases h
        refine ⟨ht, hn, ?_, head, m, hhead, ?_⟩
        · intro hmem
          obtain hmem | hmem := List.mem_append.mp hmem
          · exact hd hmem
          · exact hquote (List.mem_singleton.mp hmem).symm
        · rw [List.append_assoc, List.append_assoc]
          rfl
  | done t n d =>
      obtain ⟨ht, hn, hd, head, m, k, hhead, rfl⟩ := hread
      rw [next] at h
      split at h
      · cases h
      next hspace =>
        cases h
        rw [not_not.mp hspace]
        refine ⟨ht, hn, hd, head, m, k + 1, hhead, ?_⟩
        rw [← spaces_snoc k, List.append_assoc, List.append_assoc _ _ [space], List.cons_append]

theorem LexState.Reads.run (hread : ls.Reads line) (h : lexRun ls l = .ok ls') :
    ls'.Reads (line ++ l) :=
  Scanner.run_reads (fun _ _ _ _ hread h => LexState.Reads.snoc hread h) hread h

theorem reads_of_lexRun (h : lexRun (.type []) line = .ok ls) : ls.Reads line := by
  have hstart : (LexState.type []).Reads [] := ⟨.inl rfl, 0, rfl⟩
  exact hstart.run h

theorem form_of_finish {r : List (List Byte) × Nat} (hread : ls.Reads line)
    (h : ls.finish = .ok r) : Form line r.1 r.2 := by
  cases ls with
  | type t =>
      obtain ⟨-, a, rfl⟩ := hread
      rw [LexState.finish] at h
      split at h
      next hnil =>
        cases h
        exact .blank (by rw [hnil, List.append_nil])
      · cases h
  | name t n =>
      obtain ⟨ht, hn, hhead⟩ := hread
      rw [LexState.finish] at h
      split at h
      · cases h
      next hne =>
        cases h
        exact .plain ht (hn.resolve_left hne) ⟨line, 0, hhead, (List.append_nil line).symm⟩
  | afterName t n =>
      obtain ⟨ht, hn, head, m, hhead, rfl⟩ := hread
      cases h
      exact .plain ht hn ⟨head, m + 1, hhead, rfl⟩
  | desc t n d => cases h
  | done t n d =>
      obtain ⟨ht, hn, hd, hline⟩ := hread
      cases h
      exact .quoted ht hn ⟨hd, hline⟩

theorem lexRun_append (ls : LexState) (l l' : List Byte) :
    lexRun ls (l ++ l') = (lexRun ls l >>= fun ls => lexRun ls l') := List.foldlM_append

theorem lexRun_spaces (h : ls.next space = .ok ls) (k : Nat) : lexRun ls (spaces k) = .ok ls :=
  Scanner.run_skip h k

theorem IsToken.next (h : IsToken l) : ∀ c ∈ l, c ≠ Tenok.space ∧ c ≠ Msggen.quote :=
  fun _ hc => ⟨fun heq => h.space (heq ▸ hc), fun heq => h.quote (heq ▸ hc)⟩

theorem lexRun_head (ht : IsToken t) (hn : IsToken n) (hhead : Heads t n head) :
    lexRun (.type []) head = .ok (.name t n) := by
  obtain ⟨a, b, rfl⟩ := hhead
  have htype : lexRun (.type []) t = .ok (.type t) := by
    refine Scanner.run_gather LexState.type (fun t' c hc => ?_) []
    rw [LexState.next, if_neg (ht.next c hc).1, if_neg (ht.next c hc).2]
  have hname : lexRun (.name t []) n = .ok (.name t n) := by
    refine Scanner.run_gather (LexState.name t) (fun n' c hc => ?_) []
    rw [LexState.next, if_neg (hn.next c hc).1, if_neg (hn.next c hc).2]
  have hspace : (LexState.type t).next space = .ok (.name t []) := by
    rw [LexState.next, if_pos rfl, if_neg ht.ne_nil]
  have hgap : lexRun (.type t) (spaces (b + 1)) = .ok (.name t []) := by
    rw [spaces, List.replicate_succ, lexRun, List.foldlM_cons, hspace]
    exact lexRun_spaces rfl b
  rw [lexRun_append, lexRun_append, lexRun_append, lexRun_spaces rfl a, ok_bind, htype, ok_bind,
    hgap, ok_bind, hname]

theorem lexRun_afterName (hn : IsToken n) (m : Nat) :
    lexRun (.name t n) (spaces (m + 1)) = .ok (.afterName t n) := by
  have hspace : (LexState.name t n).next space = .ok (.afterName t n) := by
    rw [LexState.next, if_pos rfl, if_neg hn.ne_nil]
  rw [spaces, List.replicate_succ, lexRun, List.foldlM_cons, hspace]
  exact lexRun_spaces rfl m

theorem lexLine_plain (ht : IsToken t) (hn : IsToken n) (h : Plain t n line) :
    lexLine line = .ok ([t, n, []], 2) := by
  obtain ⟨head, m, hhead, rfl⟩ := h
  rw [lexLine, lexRun_append, lexRun_head ht hn hhead, ok_bind]
  cases m with
  | zero => exact if_neg hn.ne_nil
  | succ m =>
      rw [lexRun_afterName hn]
      rfl

theorem lexLine_quoted (ht : IsToken t) (hn : IsToken n) (h : Quoted t n d line) :
    lexLine line = .ok ([t, n, d], 3) := by
  obtain ⟨hd, head, m, k, hhead, rfl⟩ := h
  have hdesc : lexRun (.desc t n []) d = .ok (.desc t n d) := by
    refine Scanner.run_gather (LexState.desc t n) (fun d' c hc => ?_) []
    rw [LexState.next, if_neg (fun heq : c = quote => hd (heq ▸ hc))]
  have hopen : lexRun (.afterName t n) (quote :: d) = .ok (.desc t n d) := hdesc
  have hclose : lexRun (.desc t n d) (quote :: spaces k) = .ok (.done t n d) := lexRun_spaces rfl k
  rw [lexLine, lexRun_append, lexRun_head ht hn hhead, ok_bind, List.append_assoc, lexRun_append,
    lexRun_afterName hn, ok_bind, lexRun_append, hopen, ok_bind, hclose]
  rfl

theorem lexLine_iff {tokens : List (List Byte)} {cnt : Nat} :
    lexLine line = .ok (tokens, cnt) ↔ Form line tokens cnt := by
  constructor
  · intro h
    rw [lexLine] at h
    cases hrun : lexRun (.type []) line with
    | error e =>
        rw [hrun] at h
        cases h
    | ok ls =>
        rw [hrun, ok_bind] at h
        exact form_of_finish (reads_of_lexRun hrun) h
  · intro h
    cases h with
    | blank h =>
        rw [h, lexLine, lexRun_spaces rfl]
        rfl
    | plain ht hn h => exact lexLine_plain ht hn h
    | quoted ht hn h => exact lexLine_quoted ht hn h

theorem next_ne_outside (h : ls.next c = .error e) : e ≠ .outside := by
  cases ls <;> rw [LexState.next] at h <;> grind

theorem lexRun_ne_outside (h : lexRun ls l = .error e) : e ≠ .outside :=
  Scanner.run_error (P := (· ≠ .outside)) (fun _ _ h => next_ne_outside h) h

theorem lexLine_ne_outside (h : lexLine line = .error e) : e ≠ .outside := by
  rw [lexLine] at h
  cases hrun : lexRun (.type []) line with
  | error e' =>
      rw [hrun] at h
      cases h
      exact lexRun_ne_outside hrun
  | ok ls =>
      rw [hrun, ok_bind] at h
      cases ls <;> rw [LexState.finish] at h <;> grind

end Lines

end Tenok.Msggen
