import Tenok.Tools.MsgTokens

/-!
`type_check` and `parse_variable_name` of `tools/msggen/msggen.c`: the types that are taken, and
the names with and without an array size.
-/
namespace Tenok.Msggen

def ascii (s : String) : List Byte := s.toList.map fun c => BitVec.ofNat 8 c.toNat

def supportTypes : List (List Byte) :=
  ["bool", "uint8_t", "int8_t", "uint16_t", "int16_t", "uint32_t", "int32_t", "uint64_t",
    "int64_t", "float", "double"].map ascii

/-- The type is compared with the start of each supported one. -/
def typeCheck (type : List Byte) : Bool :=
  supportTypes.any fun s => strncmpEq (type ++ [0#8]) (s ++ [0#8]) type.length

theorem typeCheck_supportTypes : ∀ type ∈ supportTypes, typeCheck type = true := by decide

def isDigit (c : Byte) : Bool := decide (48#8 ≤ c) && decide (c ≤ 57#8)

/-- `(c >= 'A' && c <= 'Z') || (c >= 'a' && c <= 'z') || (c == '_')`. -/
def isLetter (c : Byte) : Bool :=
  (decide (65#8 ≤ c) && decide (c ≤ 90#8)) || (decide (97#8 ≤ c) && decide (c ≤ 122#8)) ||
    decide (c = 95#8)

def leftBracket : Byte := 91#8

def rightBracket : Byte := 93#8

inductive VarNameParserStates
  | waitName
  | waitNameOrLb
  | waitIndex
  | waitIndexOrRb
  | overLength
  deriving DecidableEq, Repr

structure NameState where
  state : VarNameParserStates
  varName : List Byte
  varNameLen : Nat
  arraySize : List Byte
  arraySizeLen : Nat
  bracketNotClosed : Bool

namespace NameState

/-- `var_name[var_name_len++] = c`. -/
def storeName (st : NameState) (c : Byte) : Except MsgError NameState := do
  let varName ← store st.varName st.varNameLen c
  .ok { st with varName, varNameLen := st.varNameLen + 1 }

/-- `array_size[array_size_len++] = c`. -/
def storeIndex (st : NameState) (c : Byte) : Except MsgError NameState := do
  let arraySize ← store st.arraySize st.arraySizeLen c
  .ok { st with arraySize, arraySizeLen := st.arraySizeLen + 1 }

def next (st : NameState) (c : Byte) : Except MsgError NameState :=
  match st.state with
  | .waitName =>
      if isLetter c then { st with state := .waitNameOrLb }.storeName c else .error .illegalName
  | .waitNameOrLb =>
      if c = leftBracket then .ok { st with state := .waitIndex, bracketNotClosed := true }
      else if isDigit c || isLetter c then st.storeName c
      else .error .illegalName
  | .waitIndex =>
      if isDigit c then { st with state := .waitIndexOrRb }.storeIndex c else .error .illegalName
  | .waitIndexOrRb =>
      if c = rightBracket then .ok { st with state := .overLength, bracketNotClosed := false }
      else if isDigit c then st.storeIndex c
      else .error .illegalName
  | .overLength => .error .illegalName

end NameState

def parseVariableName (input varName arraySize : List Byte) :
    Except MsgError (List Byte × List Byte) := do
  let st ← input.foldlM NameState.next ⟨.waitName, varName, 0, arraySize, 0, false⟩
  if st.bracketNotClosed then .error .illegalName else .ok (st.varName, st.arraySize)

/-! ### Without buffers -/

inductive NameLex
  | start
  | name (n : List Byte)
  | index (n s : List Byte)
  | closed (n s : List Byte)

namespace NameLex

def next : NameLex → Byte → Except MsgError NameLex
  | start, c => if isLetter c then .ok (.name [c]) else .error .illegalName
  | name n, c =>
      if c = leftBracket then .ok (.index n [])
      else if isDigit c || isLetter c then .ok (.name (n ++ [c]))
      else .error .illegalName
  | index n s, c =>
      if s ≠ [] ∧ c = rightBracket then .ok (.closed n s)
      else if isDigit c then .ok (.index n (s ++ [c]))
      else .error .illegalName
  | closed _ _, _ => .error .illegalName

def finish : NameLex → Except MsgError (List Byte × List Byte)
  | start => .ok ([], [])
  | name n => .ok (n, [])
  | index _ _ => .error .illegalName
  | closed n s => .ok (n, s)

def stored : NameLex → Nat
  | start => 0
  | name n => n.length
  | index n s | closed n s => max n.length s.length

def state (size : Nat) : NameLex → NameState
  | start => ⟨.waitName, pad size [], 0, pad size [], 0, false⟩
  | name n => ⟨.waitNameOrLb, pad size n, n.length, pad size [], 0, false⟩
  | index n s =>
      ⟨if s = [] then .waitIndex else .waitIndexOrRb, pad size n, n.length, pad size s, s.length,
        true⟩
  | closed n s => ⟨.overLength, pad size n, n.length, pad size s, s.length, false⟩

end NameLex

def nameRun (ls : NameLex) (input : List Byte) : Except MsgError NameLex :=
  input.foldlM NameLex.next ls

def nameLex (input : List Byte) : Except MsgError (List Byte × List Byte) := do
  let ls ← nameRun .start input
  ls.finish

section Names
variable {size i : Nat} {c : Byte} {ls ls' : NameLex} {n s input l : List Byte} {e : MsgError}

namespace NameLex

theorem stored_next (h : ls.next c = .ok ls') : ls'.stored ≤ ls.stored + 1 := by
  cases ls with
  | start =>
      rw [next] at h
      split at h
      · cases h
        exact Nat.le_refl _
      · cases h
  | name n =>
      rw [next] at h
      split at h
      · cases h
        exact Nat.max_le.mpr ⟨Nat.le_succ _, Nat.zero_le _⟩
      · split at h
        · cases h
          exact Nat.le_of_eq List.length_append
        · cases h
  | index n s =>
      rw [next] at h
      split at h
      · cases h
        exact Nat.le_succ _
      · split at h
        · cases h
          rw [stored, stored, List.length_append, List.length_singleton]
          omega
        · cases h
  | closed n s => cases h

theorem next_state (h : ls.stored ≤ size) :
    (ls.state size).next c = (ls.next c).map (state size) := by
  cases ls with
  | start =>
      have hstore : store (pad size []) 0 c = .ok (pad size [c]) := store_pad (Nat.zero_le _)
      by_cases hc : isLetter c = true <;>
        simp [NameState.next, next, state, NameState.storeName, hc, hstore, Except.map]
  | name n =>
      by_cases hb : c = leftBracket
      · simp [NameState.next, next, state, hb, Except.map]
      · by_cases hc : (isDigit c || isLetter c) = true <;>
          simp [NameState.next, next, state, NameState.storeName, hb, hc, store_pad h, Except.map]
  | index n s =>
      have hs : s.length ≤ size := Nat.le_trans (Nat.le_max_right _ _) h
      have hstore : store (pad size s) s.length c = .ok (pad size (s ++ [c])) := store_pad hs
      obtain rfl | hne := eq_or_ne s []
      · rw [List.length_nil, List.nil_append] at hstore
        by_cases hc : isDigit c = true <;>
          simp [NameState.next, next, state, NameState.storeIndex, hc, hstore, Except.map]
      · by_cases hb : c = rightBracket
        · simp [NameState.next, next, state, hb, hne, Except.map]
        · by_cases hc : isDigit c = true <;>
            simp [NameState.next, next, state, NameState.storeIndex, hb, hc, hne, hstore, Except.map]
  | closed n s => rfl

theorem run_state (h : ls.stored + input.length ≤ size) :
    input.foldlM NameState.next (ls.state size) = (nameRun ls input).map (state size) := by
  induction input generalizing ls with
  | nil => rfl
  | cons c input ih =>
      rw [List.length_cons] at h
      rw [List.foldlM_cons, next_state (by omega), nameRun, List.foldlM_cons]
      cases hnext : ls.next c with
      | error e => rfl
      | ok ls' =>
          have hstored := stored_next hnext
          exact ih (by omega)

end NameLex

theorem parseVariableName_eq (h : input.length ≤ size) :
    parseVariableName input (calloc (size + 1)) (calloc (size + 1)) =
      (nameLex input).map fun r => (pad size r.1, pad size r.2) := by
  have hstored : NameLex.start.stored + input.length ≤ size := by rwa [NameLex.stored, Nat.zero_add]
  have hrun := NameLex.run_state hstored
  have hstart : NameLex.start.state size =
      ⟨.waitName, calloc (size + 1), 0, calloc (size + 1), 0, false⟩ := rfl
  rw [hstart] at hrun
  rw [parseVariableName, hrun, nameLex]
  cases nameRun .start input with
  | error e => rfl
  | ok ls => cases ls <;> rfl

/-! ### The names -/

/-- `[A-Za-z_][A-Za-z0-9_]*`. -/
def IsIdentifier (n : List Byte) : Prop :=
  ∃ c rest, n = c :: rest ∧ isLetter c = true ∧ ∀ b ∈ rest, (isDigit b || isLetter b) = true

def IsNumeral (s : List Byte) : Prop := s ≠ [] ∧ ∀ b ∈ s, isDigit b = true

/-- A name, with its array size in brackets if it has one. -/
def declarator (n s : List Byte) : List Byte :=
  n ++ if s = [] then [] else leftBracket :: (s ++ [rightBracket])

def IsName (input n s : List Byte) : Prop :=
  IsIdentifier n ∧ (s = [] ∨ IsNumeral s) ∧ input = declarator n s

theorem letter_ne_bracket (hc : (isDigit c || isLetter c) = true) : c ≠ leftBracket := by
  rintro rfl
  exact absurd hc (by decide)

theorem digit_ne_bracket (hc : isDigit c = true) : c ≠ rightBracket := by
  rintro rfl
  exact absurd hc (by decide)

theorem IsIdentifier.snoc (h : IsIdentifier n) (hc : (isDigit c || isLetter c) = true) :
    IsIdentifier (n ++ [c]) := by
  obtain ⟨a, rest, rfl, ha, hrest⟩ := h
  refine ⟨a, rest ++ [c], rfl, ha, fun b hb => ?_⟩
  obtain hb | hb := List.mem_append.mp hb
  · exact hrest b hb
  · rwa [List.mem_singleton.mp hb]

theorem isNumeral_snoc (h : s = [] ∨ IsNumeral s) (hc : isDigit c = true) : IsNumeral (s ++ [c]) := by
  refine ⟨List.concat_ne_nil c s, fun b hb => ?_⟩
  obtain hb | hb := List.mem_append.mp hb
  · obtain rfl | hs := h
    · cases hb
    · exact hs.2 b hb
  · rwa [List.mem_singleton.mp hb]

namespace NameLex

def Reads (input : List Byte) : NameLex → Prop
  | start => input = []
  | name n => IsIdentifier n ∧ input = n
  | index n s => IsIdentifier n ∧ (s = [] ∨ IsNumeral s) ∧ input = n ++ leftBracket :: s
  | closed n s => IsIdentifier n ∧ IsNumeral s ∧ input = n ++ leftBracket :: (s ++ [rightBracket])

theorem Reads.snoc (hread : ls.Reads input) (h : ls.next c = .ok ls') : ls'.Reads (input ++ [c]) := by
  cases ls with
  | start =>
      rw [Reads] at hread
      rw [next] at h
      split at h
      next hc =>
        cases h
        exact ⟨⟨c, [], rfl, hc, fun _ hb => absurd hb List.not_mem_nil⟩, by rw [hread]; rfl⟩
      · cases h
  | name n =>
      obtain ⟨hn, rfl⟩ := hread
      rw [next] at h
      split at h
      next hb =>
        cases h
        exact ⟨hn, .inl rfl, by rw [hb]⟩
      · split at h
        next hc =>
          cases h
          exact ⟨hn.snoc hc, rfl⟩
        · cases h
  | index n s =>
      obtain ⟨hn, hs, rfl⟩ := hread
      rw [next] at h
      split at h
      next hb =>
        cases h
        exact ⟨hn, hs.resolve_left hb.1, by rw [hb.2, List.append_assoc]; rfl⟩
      · split at h
        next hc =>
          cases h
          exact ⟨hn, .inr (isNumeral_snoc hs hc), List.append_assoc _ _ _⟩
        · cases h
  | closed n s => cases h

theorem Reads.run (hread : ls.Reads input) (h : nameRun ls l = .ok ls') :
    ls'.Reads (input ++ l) :=
  Scanner.run_reads (fun _ _ _ _ hread h => NameLex.Reads.snoc hread h) hread h

end NameLex

theorem nameRun_append (ls : NameLex) (l l' : List Byte) :
    nameRun ls (l ++ l') = (nameRun ls l >>= fun ls => nameRun ls l') := List.foldlM_append

theorem nameRun_identifier (h : IsIdentifier n) : nameRun .start n = .ok (.name n) := by
  obtain ⟨c, rest, rfl, hc, hrest⟩ := h
  have hstart : NameLex.start.next c = .ok (.name [c]) := by rw [NameLex.next, if_pos hc]
  rw [nameRun, List.foldlM_cons, hstart, ok_bind]
  refine Scanner.run_gather NameLex.name (fun u b hb => ?_) [c]
  rw [NameLex.next, if_neg (letter_ne_bracket (hrest b hb)), if_pos (hrest b hb)]

theorem nameRun_numeral (h : IsNumeral s) :
    nameRun (.name n) (leftBracket :: (s ++ [rightBracket])) = .ok (.closed n s) := by
  have hopen : nameRun (.name n) (leftBracket :: s) = .ok (.index n s) := by
    have hindex : nameRun (.index n []) s = .ok (.index n s) := by
      refine Scanner.run_gather (NameLex.index n) (fun u b hb => ?_) []
      rw [NameLex.next, if_neg fun hb' => digit_ne_bracket (h.2 b hb) hb'.2, if_pos (h.2 b hb)]
    exact hindex
  have hclose : (NameLex.index n s).next rightBracket = .ok (.closed n s) := if_pos ⟨h.1, rfl⟩
  rw [← List.cons_append, nameRun_append, hopen, ok_bind, nameRun, List.foldlM_cons, hclose]
  rfl

theorem nameLex_iff (hne : input ≠ []) : nameLex input = .ok (n, s) ↔ IsName input n s := by
  constructor
  · intro h
    rw [nameLex] at h
    cases hrun : nameRun .start input with
    | error e =>
        rw [hrun] at h
        cases h
    | ok ls =>
        have hstart : NameLex.start.Reads [] := rfl
        have hread : ls.Reads input := hstart.run hrun
        rw [hrun, ok_bind] at h
        cases ls with
        | start => exact absurd hread hne
        | name n' =>
            cases h
            exact ⟨hread.1, .inl rfl, hread.2.trans (List.append_nil _).symm⟩
        | index n' s' => cases h
        | closed n' s' =>
            cases h
            obtain ⟨hn, hs, hinput⟩ := hread
            exact ⟨hn, .inr hs, by rw [declarator, if_neg hs.1]; exact hinput⟩
  · rintro ⟨hn, hs, rfl⟩
    rw [nameLex, declarator, nameRun_append, nameRun_identifier hn, ok_bind]
    obtain rfl | hs := hs
    · rfl
    · rw [if_neg hs.1, nameRun_numeral hs]
      rfl

theorem nameLex_error (h : nameLex input = .error e) : e = .illegalName := by
  have hnext : ∀ {ls : NameLex} {c : Byte}, ls.next c = .error e → e = .illegalName := by
    intro ls c h
    cases ls <;> rw [NameLex.next] at h <;> grind
  have hrun : ∀ {l : List Byte} {ls : NameLex}, nameRun ls l = .error e → e = .illegalName :=
    fun h => Scanner.run_error (P := (· = .illegalName)) (fun _ _ h => hnext h) h
  rw [nameLex] at h
  cases hls : nameRun .start input with
  | error e' =>
      rw [hls] at h
      cases h
      exact hrun hls
  | ok ls =>
      rw [hls, ok_bind] at h
      cases ls <;> cases h
      rfl

/-- What a function returns that returns -1 on an error; `none` is a byte outside of a buffer. -/
def returned {α : Type} (value : α → Int) : Except MsgError α → Option Int
  | .ok a => some (value a)
  | .error .outside => none
  | .error _ => some (-1)

theorem returned_error {α : Type} {value : α → Int} (h : e ≠ .outside) :
    returned value (.error e : Except MsgError α) = some (-1) := by
  cases e with
  | outside => exact absurd rfl h
  | _ => rfl

theorem splitTokens_ok_iff {line : List Byte} {token : List (List Byte)} {cnt : Nat}
    (h : line.length ≤ size) :
    splitTokens (List.replicate 3 (calloc (size + 1))) line = .ok (token, cnt) ↔
      ∃ tokens, Form line tokens cnt ∧ token = tokens.map (pad size) := by
  rw [splitTokens_eq h]
  constructor
  · intro hr
    cases hlex : lexLine line with
    | error e =>
        rw [hlex] at hr
        cases hr
    | ok r =>
        rw [hlex] at hr
        cases hr
        exact ⟨r.1, lexLine_iff.mp hlex, rfl⟩
  · rintro ⟨tokens, hform, rfl⟩
    rw [lexLine_iff.mpr hform]
    rfl

theorem splitTokens_error_iff {line : List Byte} (h : line.length ≤ size) :
    returned (fun r => (r.2 : Int)) (splitTokens (List.replicate 3 (calloc (size + 1))) line) =
      some (-1) ↔ ¬ ∃ tokens cnt, Form line tokens cnt := by
  rw [splitTokens_eq h]
  constructor
  · rintro hr ⟨tokens, cnt, hform⟩
    rw [lexLine_iff.mpr hform] at hr
    have hcnt : (cnt : Int) = -1 := Option.some.inj hr
    omega
  · intro hform
    cases hlex : lexLine line with
    | error e => exact returned_error (lexLine_ne_outside hlex)
    | ok r => exact absurd ⟨r.1, r.2, lexLine_iff.mp hlex⟩ hform

theorem parseVariableName_iff {bufs : List Byte × List Byte} (hne : input ≠ [])
    (h : input.length ≤ size) :
    parseVariableName input (calloc (size + 1)) (calloc (size + 1)) = .ok bufs ↔
      ∃ n s, IsName input n s ∧ bufs = (pad size n, pad size s) := by
  rw [parseVariableName_eq h]
  constructor
  · intro hr
    cases hlex : nameLex input with
    | error e =>
        rw [hlex] at hr
        cases hr
    | ok r =>
        rw [hlex] at hr
        cases hr
        exact ⟨r.1, r.2, (nameLex_iff hne).mp hlex, rfl⟩
  · rintro ⟨n, s, hname, rfl⟩
    rw [(nameLex_iff hne).mpr hname]
    rfl

theorem parseVariableName_error_iff (hne : input ≠ []) (h : input.length ≤ size) :
    returned (fun _ => 0) (parseVariableName input (calloc (size + 1)) (calloc (size + 1))) =
      some (-1) ↔ ¬ ∃ n s, IsName input n s := by
  rw [parseVariableName_eq h]
  constructor
  · rintro hr ⟨n, s, hname⟩
    rw [(nameLex_iff hne).mpr hname] at hr
    cases hr
  · intro hname
    cases hlex : nameLex input with
    | error e => exact returned_error (by rw [nameLex_error hlex]; decide)
    | ok r => exact absurd ⟨r.1, r.2, (nameLex_iff hne).mp hlex⟩ hname

/-- `split_tokens` and `parse_variable_name` with zeroed buffers that are long enough. -/
theorem token_grammar {line : List Byte} (hline : line.length ≤ size) (hne : input ≠ [])
    (hinput : input.length ≤ size) :
    ((∃ token, splitTokens (List.replicate 3 (calloc (size + 1))) line = .ok (token, 0)) ↔
      ∃ k, line = spaces k) ∧
    (∀ token, splitTokens (List.replicate 3 (calloc (size + 1))) line = .ok (token, 2) ↔
      ∃ t n, IsToken t ∧ IsToken n ∧ Plain t n line ∧ token = [pad size t, pad size n, pad size []]) ∧
    (∀ token, splitTokens (List.replicate 3 (calloc (size + 1))) line = .ok (token, 3) ↔
      ∃ t n d, IsToken t ∧ IsToken n ∧ Quoted t n d line ∧
        token = [pad size t, pad size n, pad size d]) ∧
    (returned (fun r => (r.2 : Int)) (splitTokens (List.replicate 3 (calloc (size + 1))) line) =
      some (-1) ↔
        ¬ ((∃ k, line = spaces k) ∨ ∃ t n, IsToken t ∧ IsToken n ∧
          (Plain t n line ∨ ∃ d, Quoted t n d line))) ∧
    (∀ bufs, parseVariableName input (calloc (size + 1)) (calloc (size + 1)) = .ok bufs ↔
      ∃ n s, IsName input n s ∧ bufs = (pad size n, pad size s)) ∧
    (returned (fun _ => 0) (parseVariableName input (calloc (size + 1)) (calloc (size + 1))) =
      some (-1) ↔ ¬ ∃ n s, IsName input n s) := by
  refine ⟨?_, fun token => ?_, fun token => ?_, ?_, fun bufs => parseVariableName_iff hne hinput,
    parseVariableName_error_iff hne hinput⟩
  · constructor
    · rintro ⟨token, hr⟩
      obtain ⟨tokens, hform, -⟩ := (splitTokens_ok_iff hline).mp hr
      cases hform with
      | blank h => exact ⟨_, h⟩
    · rintro ⟨k, hk⟩
      exact ⟨_, (splitTokens_ok_iff hline).mpr ⟨_, .blank hk, rfl⟩⟩
  · rw [splitTokens_ok_iff hline]
    constructor
    · rintro ⟨tokens, hform, rfl⟩
      cases hform with
      | plain ht hn h => exact ⟨_, _, ht, hn, h, rfl⟩
    · rintro ⟨t, n, ht, hn, h, rfl⟩
      exact ⟨_, .plain ht hn h, rfl⟩
  · rw [splitTokens_ok_iff hline]
    constructor
    · rintro ⟨tokens, hform, rfl⟩
      cases hform with
      | quoted ht hn h => exact ⟨_, _, _, ht, hn, h, rfl⟩
    · rintro ⟨t, n, d, ht, hn, h, rfl⟩
      exact ⟨_, .quoted ht hn h, rfl⟩
  · rw [splitTokens_error_iff hline]
    refine not_congr ⟨?_, ?_⟩
    · rintro ⟨tokens, cnt, hform⟩
      cases hform with
      | blank h => exact .inl ⟨_, h⟩
      | plain ht hn h => exact .inr ⟨_, _, ht, hn, .inl h⟩
      | quoted ht hn h => exact .inr ⟨_, _, ht, hn, .inr ⟨_, h⟩⟩
    · rintro (⟨k, hk⟩ | ⟨t, n, ht, hn, h | ⟨d, h⟩⟩)
      · exact ⟨_, _, .blank hk⟩
      · exact ⟨_, _, .plain ht hn h⟩
      · exact ⟨_, _, .quoted ht hn h⟩

/-- `uint8_t x[3] "on"`. -/
theorem token_grammar_array :
    (∃ t n d, IsToken t ∧ IsToken n ∧ Quoted t n d (ascii "uint8_t x[3] \"on\"")) ∧
      ∃ n s, IsName (ascii "x[3]") n s ∧
        parseVariableName (ascii "x[3]") (calloc 18) (calloc 18) = .ok (pad 17 n, pad 17 s) := by
  have hline : (ascii "uint8_t x[3] \"on\"").length ≤ 17 := by decide
  have hne : ascii "x[3]" ≠ [] := by decide
  have hgrammar := token_grammar hline hne (by decide)
  have hsplit : splitTokens (List.replicate 3 (calloc 18)) (ascii "uint8_t x[3] \"on\"") =
      .ok ([pad 17 (ascii "uint8_t"), pad 17 (ascii "x[3]"), pad 17 (ascii "on")], 3) := by
    decide
  have hparse : parseVariableName (ascii "x[3]") (calloc 18) (calloc 18) =
      .ok (pad 17 (ascii "x"), pad 17 (ascii "3")) := by
    decide
  obtain ⟨t, n, d, ht, hn, hquoted, -⟩ := (hgrammar.2.2.1 _).mp hsplit
  obtain ⟨n', s, hname, hbufs⟩ := (hgrammar.2.2.2.2.1 _).mp hparse
  exact ⟨⟨t, n, d, ht, hn, hquoted⟩, n', s, hname, by rw [hparse, hbufs]⟩

end Names

end Tenok.Msggen
