import Tenok.Common.CString
import Tenok.Lib.Words

/-!
`shell_split_cmd_token` of `user/shell/shell.c`. The line is an array that ends with its terminator
and `argv` has `SHELL_ARG_CNT` entries; an access outside of them is `none`.
-/
namespace Tenok
open Words

def shellArgCnt : Nat := 10

/-- The line, and the array with its count. A pointer is an offset in the line. -/
structure Tokens where
  cmd : List Byte
  argv : List (Option Nat)
  argc : Nat

def skipLeading (cmd : List Byte) (len : Nat) : Nat → Nat → Option Nat
  | 0, _ => none
  | fuel + 1, i =>
      if i < len then do
        let c ← cmd[i]?
        if c = space then skipLeading cmd len fuel (i + 1) else some i
      else some i

/-- The repeated spaces, without a look at the length. -/
def skipSpaces (cmd : List Byte) : Nat → Nat → Option Nat
  | 0, _ => none
  | fuel + 1, i => do
      let c ← cmd[i]?
      if c = space then skipSpaces cmd fuel (i + 1) else some i

/-- `argv[argc] = &cmd[i]`. -/
def setArg (argv : List (Option Nat)) (argc i : Nat) : Option (List (Option Nat)) :=
  if argc < argv.length then some (argv.set argc (some i)) else none

def splitLoop (len : Nat) : Nat → Nat → Tokens → Option Tokens
  | 0, _, _ => none
  | fuel + 1, i, t =>
      if i < len then do
        let c ← t.cmd[i]?
        if c = space then do
          let cmd := t.cmd.set i 0#8
          let j ← skipSpaces cmd (len + 1) (i + 1)
          if j = len then some { t with cmd }
          else if t.argc ≤ shellArgCnt - 1 then do
            let argv ← setArg t.argv t.argc j
            splitLoop len fuel (j + 1) { cmd, argv, argc := t.argc + 1 }
          else splitLoop len fuel (j + 1) { t with cmd }
        else splitLoop len fuel (i + 1) t
      else some t

def shellSplitCmdToken (cmd : List Byte) (argv : List (Option Nat)) : Option Tokens := do
  let len ← strlen? cmd
  let i ← skipLeading cmd len (len + 1) 0
  let argv ← setArg argv 0 i
  splitLoop len (len + 1) i { cmd, argv, argc := 1 }

section Loops
variable {cmd : List Byte} {c : Byte} {len n i j fuel : Nat} {t : Tokens}

theorem skipSpaces_eq (hfuel : n < fuel) (hspaces : ∀ k < n, cmd[i + k]? = some space)
    (hstop : cmd[i + n]? = some c) (hc : c ≠ space) : skipSpaces cmd fuel i = some (i + n) := by
  induction n generalizing i fuel with
  | zero =>
      obtain ⟨fuel, rfl⟩ := Nat.exists_eq_add_of_lt hfuel
      rw [Nat.zero_add, skipSpaces, show cmd[i]? = some c from hstop]
      exact if_neg hc
  | succ n ih =>
      obtain ⟨fuel, rfl⟩ := Nat.exists_eq_add_of_lt hfuel
      have hnext : skipSpaces cmd (n + 1 + fuel) (i + 1) = some (i + 1 + n) := by
        refine ih (by omega) (fun k hk => ?_) ?_
        · rw [Nat.add_assoc, Nat.add_comm 1]
          exact hspaces (k + 1) (by omega)
        · rwa [Nat.add_assoc, Nat.add_comm 1]
      rw [skipSpaces, show cmd[i]? = some space from hspaces 0 (by omega), Option.bind_eq_bind,
        Option.bind_some, if_pos rfl, hnext]
      congr 1
      omega

theorem skipLeading_eq (hfuel : n < fuel) (hlen : i + n ≤ len)
    (hspaces : ∀ k < n, cmd[i + k]? = some space) (hstop : cmd[i + n]? = some c) (hc : c ≠ space) :
    skipLeading cmd len fuel i = some (i + n) := by
  induction n generalizing i fuel with
  | zero =>
      obtain ⟨fuel, rfl⟩ := Nat.exists_eq_add_of_lt hfuel
      rw [Nat.zero_add, skipLeading, show cmd[i]? = some c from hstop]
      split
      · exact if_neg hc
      · rfl
  | succ n ih =>
      obtain ⟨fuel, rfl⟩ := Nat.exists_eq_add_of_lt hfuel
      have hnext : skipLeading cmd len (n + 1 + fuel) (i + 1) = some (i + 1 + n) := by
        refine ih (by omega) (by omega) (fun k hk => ?_) ?_
        · rw [Nat.add_assoc, Nat.add_comm 1]
          exact hspaces (k + 1) (by omega)
        · rwa [Nat.add_assoc, Nat.add_comm 1]
      rw [skipLeading, if_pos (by omega), show cmd[i]? = some space from hspaces 0 (by omega),
        Option.bind_eq_bind, Option.bind_some, if_pos rfl, hnext]
      congr 1
      omega

/-- `argv[argc] = &cmd[i]`, where there is an entry. -/
def recordArg (argv : List (Option Nat)) (argc j : Nat) : List (Option Nat) :=
  if argc < shellArgCnt then argv.set argc (some j) else argv

theorem length_recordArg (argv : List (Option Nat)) (argc j : Nat) :
    (recordArg argv argc j).length = argv.length := by
  rw [recordArg]
  split
  · exact List.length_set
  · rfl

theorem getElem?_recordArg {argv : List (Option Nat)} (hn : n < argv.length) (hlt : n < shellArgCnt) :
    (recordArg argv n j)[n]? = some (some j) := by
  rw [recordArg, if_pos hlt, List.getElem?_set_self hn]

theorem splitLoop_length {t' : Tokens} (h : splitLoop len fuel i t = some t') :
    t'.cmd.length = t.cmd.length := by
  induction fuel generalizing i t with
  | zero => cases h
  | succ fuel ih =>
      rw [splitLoop] at h
      split at h
      · obtain ⟨c, -, h⟩ := Option.bind_eq_some_iff.mp h
        dsimp only at h
        split at h
        · obtain ⟨j, -, h⟩ := Option.bind_eq_some_iff.mp h
          split at h
          · obtain rfl := Option.some.inj h
            exact List.length_set
          · split at h
            · obtain ⟨argv, -, h⟩ := Option.bind_eq_some_iff.mp h
              exact (ih h).trans List.length_set
            · exact (ih h).trans List.length_set
        · exact ih h
      · obtain rfl := Option.some.inj h
        rfl

theorem splitLoop_end (hi : i = len) : splitLoop len (fuel + 1) i t = some t := by
  rw [splitLoop, if_neg (by omega)]

theorem splitLoop_char (hi : i < len) (hget : t.cmd[i]? = some c) (hc : c ≠ space) :
    splitLoop len (fuel + 1) i t = splitLoop len fuel (i + 1) t := by
  rw [splitLoop, if_pos hi, hget, Option.bind_eq_bind, Option.bind_some, if_neg hc]

theorem splitLoop_last (hi : i < len) (hget : t.cmd[i]? = some space)
    (hskip : skipSpaces (t.cmd.set i 0#8) (len + 1) (i + 1) = some len) :
    splitLoop len (fuel + 1) i t = some { t with cmd := t.cmd.set i 0#8 } := by
  rw [splitLoop, if_pos hi, hget, Option.bind_eq_bind, Option.bind_some, if_pos rfl]
  change (skipSpaces (t.cmd.set i 0#8) (len + 1) (i + 1)).bind _ = _
  rw [hskip, Option.bind_some, if_pos rfl]

theorem splitLoop_space (hi : i < len) (hget : t.cmd[i]? = some space) (hj : j ≠ len)
    (hskip : skipSpaces (t.cmd.set i 0#8) (len + 1) (i + 1) = some j)
    (hargv : t.argv.length = shellArgCnt) (hargc : t.argc = min (n + 1) shellArgCnt) :
    splitLoop len (fuel + 1) i t = splitLoop len fuel (j + 1)
      ⟨t.cmd.set i 0#8, recordArg t.argv (n + 1) j, min (n + 1 + 1) shellArgCnt⟩ := by
  rw [splitLoop, if_pos hi, hget, Option.bind_eq_bind, Option.bind_some, if_pos rfl]
  change (skipSpaces (t.cmd.set i 0#8) (len + 1) (i + 1)).bind _ = _
  rw [hskip, Option.bind_some, if_neg hj, recordArg]
  by_cases hn : n + 1 < shellArgCnt
  · rw [Nat.min_eq_left (by omega)] at hargc
    rw [if_pos (by omega), if_pos hn, Nat.min_eq_left (by omega), setArg, if_pos (by omega), hargc]
    rfl
  · rw [Nat.min_eq_right (by omega)] at hargc
    rw [if_neg (by rw [hargc]; decide), if_neg hn, Nat.min_eq_right (by omega), hargc]

end Loops

/-- From entry `from` on, the entries of `argv` point to the words, as far as there are entries. -/
def Points (cmd : List Byte) (argv : List (Option Nat)) (start : Nat) (ws : List (List Byte)) : Prop :=
  ∀ k w, ws[k]? = some w → start + k < shellArgCnt →
    ∃ p, argv[start + k]? = some (some p) ∧ stringAt cmd p = some w

theorem Points.nil (cmd : List Byte) (argv : List (Option Nat)) (n : Nat) : Points cmd argv n [] :=
  fun k w h => by cases h

theorem Points.cons {cmd w : List Byte} {argv : List (Option Nat)} {n p : Nat} {ws : List (List Byte)}
    (hrest : Points cmd argv (n + 1) ws) (harg : n < shellArgCnt → argv[n]? = some (some p))
    (hw : stringAt cmd p = some w) : Points cmd argv n (w :: ws) := by
  intro k v hk hlt
  cases k with
  | zero =>
      obtain rfl := Option.some.inj hk
      exact ⟨p, harg hlt, hw⟩
  | succ k =>
      rw [show n + (k + 1) = n + 1 + k by omega] at hlt ⊢
      exact hrest k v hk hlt

section Split
variable {pre cur rest : List Byte} {argv : List (Option Nat)} {len n fuel : Nat}

theorem getElem?_loop {c : Byte} :
    (pre ++ (cur ++ c :: rest))[pre.length + cur.length]? = some c := by
  rw [← List.append_assoc, ← List.length_append, List.getElem?_append_right (Nat.le_refl _),
    Nat.sub_self]
  rfl

theorem set_loop {c : Byte} : (pre ++ (cur ++ c :: rest)).set (pre.length + cur.length) 0#8 =
    pre ++ (cur ++ 0#8 :: rest) := by
  rw [List.set_append_right _ _ (by omega), Nat.add_sub_cancel_left,
    List.set_append_right _ _ (Nat.le_refl _), Nat.sub_self, List.set_cons_zero]

theorem skipSpaces_loop {c : Byte} {m : Nat} (hc : c ≠ space) (hm : m < fuel) :
    skipSpaces (pre ++ (cur ++ 0#8 :: (List.replicate m space ++ c :: rest))) fuel
      (pre.length + cur.length + 1) = some (pre.length + cur.length + 1 + m) := by
  have hget : ∀ k, (pre ++ (cur ++ 0#8 :: (List.replicate m space ++ c :: rest)))[
      pre.length + cur.length + 1 + k]? = (List.replicate m space ++ c :: rest)[k]? := by
    intro k
    rw [← List.append_assoc, ← List.length_append, Nat.add_assoc,
      List.getElem?_append_right (Nat.le_add_right ..), Nat.add_sub_cancel_left, Nat.add_comm 1,
      List.getElem?_cons_succ]
  refine skipSpaces_eq hm (fun k hk => ?_) ?_ hc
  · rw [hget, List.getElem?_append_left (by rwa [List.length_replicate]),
      List.getElem?_replicate, if_pos hk]
  · rw [hget, List.getElem?_append_right (Nat.le_of_eq List.length_replicate), List.length_replicate,
      Nat.sub_self]
    rfl

/-- From word `n` on, which starts behind `pre`, the line was split into the words. -/
structure SplitTo (pre : List Byte) (argv : List (Option Nat)) (n : Nat) (ws : List (List Byte))
    (t : Tokens) : Prop where
  cmd : ∃ tail, t.cmd = pre ++ tail
  argc : t.argc = min (n + ws.length) shellArgCnt
  kept : ∀ k ≤ n, t.argv[k]? = argv[k]?
  points : Points t.cmd t.argv n ws

theorem SplitTo.last (hzero : 0#8 ∉ cur) (hcur : n < shellArgCnt → argv[n]? = some (some pre.length)) :
    SplitTo pre argv n [cur] ⟨pre ++ (cur ++ 0#8 :: rest), argv, min (n + 1) shellArgCnt⟩ where
  cmd := ⟨_, rfl⟩
  argc := rfl
  kept _ _ := rfl
  points := (Points.nil _ _ _).cons hcur (stringAt_append hzero rfl)

theorem SplitTo.next {ws : List (List Byte)} {t : Tokens} {j : Nat} (hzero : 0#8 ∉ cur)
    (hcur : n < shellArgCnt → argv[n]? = some (some pre.length))
    (h : SplitTo (pre ++ (cur ++ 0#8 :: rest)) (recordArg argv (n + 1) j) (n + 1) ws t) :
    SplitTo pre argv n (cur :: ws) t := by
  have hkept : ∀ k ≤ n, t.argv[k]? = argv[k]? := by
    intro k hk
    rw [h.kept k (by omega), recordArg]
    split
    · exact List.getElem?_set_ne (by omega)
    · rfl
  obtain ⟨tail, htail⟩ := h.cmd
  rw [List.append_assoc, List.append_assoc, List.cons_append] at htail
  refine ⟨⟨_, htail⟩, ?_, hkept, ?_⟩
  · rw [h.argc, List.length_cons, Nat.add_assoc, Nat.add_comm 1]
  · refine h.points.cons (fun hn => (hkept n (Nat.le_refl n)).trans (hcur hn)) ?_
    rw [htail]
    exact stringAt_append hzero rfl

theorem splitLoop_words (hlen : len = pre.length + cur.length + rest.length) (hfuel : rest.length < fuel)
    (hzero : 0#8 ∉ cur ++ rest) (hspace : space ∉ cur) (hne : cur ≠ [])
    (hargv : argv.length = shellArgCnt) (hcur : n < shellArgCnt → argv[n]? = some (some pre.length)) :
    ∃ t, splitLoop len fuel (pre.length + cur.length)
        ⟨pre ++ (cur ++ (rest ++ [0#8])), argv, min (n + 1) shellArgCnt⟩ = some t ∧
      SplitTo pre argv n (words space (cur ++ rest)) t := by
  induction fuel generalizing pre cur rest argv n with
  | zero => omega
  | succ fuel ih =>
      have hcurZero : 0#8 ∉ cur := fun h => hzero (List.mem_append_left _ h)
      cases rest with
      | nil =>
          rw [List.append_nil, words_eq_singleton hspace hne]
          exact ⟨_, splitLoop_end hlen.symm, .last hcurZero hcur⟩
      | cons c r =>
          rw [List.length_cons] at hlen hfuel
          by_cases hc : c = space
          · subst hc
            obtain ⟨m, r', rfl, hr'⟩ := exists_replicate_append space r
            rw [words_append_sep hspace hne, words_replicate, List.cons_append, List.append_assoc]
            rw [List.length_append, List.length_replicate] at hlen hfuel
            cases r' with
            | nil =>
                rw [List.length_nil] at hlen
                have hskip : skipSpaces (pre ++ (cur ++ 0#8 :: (List.replicate m space ++ [0#8]))) (len + 1)
                    (pre.length + cur.length + 1) = some (pre.length + cur.length + 1 + m) :=
                  skipSpaces_loop (by decide) (by omega)
                rw [show pre.length + cur.length + 1 + m = len by omega, ← set_loop (c := space)] at hskip
                refine ⟨_, splitLoop_last (by omega) getElem?_loop hskip, ?_⟩
                rw [List.nil_append, set_loop]
                exact .last hcurZero hcur
            | cons d r =>
                have hd : d ≠ space := fun h => hr' (congrArg some h)
                rw [List.length_cons] at hlen hfuel
                have hskip : skipSpaces (pre ++ (cur ++ 0#8 :: (List.replicate m space ++ d :: (r ++ [0#8]))))
                    (len + 1) (pre.length + cur.length + 1) = some (pre.length + cur.length + 1 + m) :=
                  skipSpaces_loop hd (by omega)
                rw [← set_loop (c := space)] at hskip
                rw [List.cons_append, splitLoop_space (by omega) getElem?_loop (by omega) hskip hargv rfl,
                  set_loop]
                have hpre : (pre ++ (cur ++ 0#8 :: List.replicate m space)).length =
                    pre.length + cur.length + 1 + m := by
                  simp only [List.length_append, List.length_cons, List.length_replicate]
                  omega
                have hmem : ∀ b ∈ [d] ++ r, b ∈ cur ++ space :: (List.replicate m space ++ d :: r) :=
                  fun b hb => List.mem_append_right _ (List.mem_cons_of_mem _ (List.mem_append_right _ hb))
                obtain ⟨t, ht, hsplit⟩ := @ih (pre ++ (cur ++ 0#8 :: List.replicate m space)) [d] r
                  (recordArg argv (n + 1) (pre.length + cur.length + 1 + m)) (n + 1)
                  (by rw [hpre, List.length_singleton]; omega) (by omega) (fun h => hzero (hmem _ h))
                  (by simpa using Ne.symm hd) (by simp) (by rw [length_recordArg, hargv])
                  (fun hn => by rw [hpre, getElem?_recordArg (hargv.symm ▸ hn) hn])
                refine ⟨t, ?_, hsplit.next hcurZero hcur⟩
                rw [← ht, hpre, List.length_singleton]
                simp only [List.append_assoc, List.cons_append, List.nil_append]
          · have hassoc : cur ++ c :: r = (cur ++ [c]) ++ r := by rw [List.append_assoc]; rfl
            obtain ⟨t, ht, hsplit⟩ := @ih pre (cur ++ [c]) r argv n
              (by rw [List.length_append, List.length_singleton]; omega) (by omega) (by rwa [← hassoc])
              (by simp [hspace, Ne.symm hc]) (by simp) hargv hcur
            rw [hassoc]
            refine ⟨t, ?_, hsplit⟩
            rw [List.cons_append, splitLoop_char (by omega) getElem?_loop hc, ← ht, List.length_append,
              List.append_assoc]
            rfl

end Split

section Line
variable {line r : List Byte} {n : Nat}

theorem skipLeading_line {c : Byte} {len : Nat} (hc : c ≠ space) (hn : n ≤ len) :
    skipLeading (List.replicate n space ++ c :: r) len (len + 1) 0 = some n := by
  have hskip : skipLeading (List.replicate n space ++ c :: r) len (len + 1) 0 = some (0 + n) := by
    refine skipLeading_eq (by omega) (by omega) (fun k hk => ?_) ?_ hc
    · rw [Nat.zero_add, List.getElem?_append_left (by rwa [List.length_replicate]),
        List.getElem?_replicate, if_pos hk]
    · rw [Nat.zero_add, List.getElem?_append_right (Nat.le_of_eq List.length_replicate),
        List.length_replicate, Nat.sub_self]
      rfl
  rwa [Nat.zero_add] at hskip

theorem shellSplitCmdToken_eq (hline : 0#8 ∉ line)
    (hskip : skipLeading (line ++ [0#8]) line.length (line.length + 1) 0 = some n) :
    shellSplitCmdToken (line ++ [0#8]) (List.replicate shellArgCnt none) =
      splitLoop line.length (line.length + 1) n
        ⟨line ++ [0#8], some n :: List.replicate (shellArgCnt - 1) none, 1⟩ := by
  rw [shellSplitCmdToken, strlen?_append hline, Option.bind_eq_bind, Option.bind_some, hskip]
  rfl

theorem shellSplitCmdToken_blank (n : Nat) :
    shellSplitCmdToken (List.replicate n space ++ [0#8]) (List.replicate shellArgCnt none) =
      some ⟨List.replicate n space ++ [0#8], some n :: List.replicate (shellArgCnt - 1) none, 1⟩ := by
  have hzero : 0#8 ∉ List.replicate n space := fun h => by cases (List.mem_replicate.mp h).2
  have hlen : (List.replicate n space).length = n := List.length_replicate
  rw [shellSplitCmdToken_eq hzero (skipLeading_line (by decide) (Nat.le_of_eq hlen.symm))]
  exact splitLoop_end hlen.symm

theorem shellSplitCmdToken_length {argv : List (Option Nat)} {t : Tokens}
    (h : shellSplitCmdToken line argv = some t) : t.cmd.length = line.length := by
  obtain ⟨len, -, h⟩ := Option.bind_eq_some_iff.mp h
  obtain ⟨i, -, h⟩ := Option.bind_eq_some_iff.mp h
  obtain ⟨argv', -, h⟩ := Option.bind_eq_some_iff.mp h
  exact splitLoop_length h

theorem shellSplitCmdToken_spec (hline : 0#8 ∉ line) :
    ∃ t, shellSplitCmdToken (line ++ [0#8]) (List.replicate shellArgCnt none) = some t ∧
      t.argc = max 1 (min (words space line).length shellArgCnt) ∧
      ∀ k < t.argc, ∃ p, t.argv[k]? = some (some p) ∧
        stringAt t.cmd p = some ((words space line).getD k []) := by
  obtain ⟨n, r, rfl, hr⟩ := exists_replicate_append space line
  rw [words_replicate]
  cases r with
  | nil =>
      rw [List.append_nil, words_nil]
      refine ⟨_, shellSplitCmdToken_blank n, rfl, fun k hk => ?_⟩
      obtain rfl := Nat.lt_one_iff.mp hk
      exact ⟨n, rfl, stringAt_append (w := []) (by simp) List.length_replicate.symm⟩
  | cons d r =>
      have hd : d ≠ space := fun h => hr (congrArg some h)
      have hzero : 0#8 ∉ [d] ++ r := fun h => hline (List.mem_append_right _ h)
      have hlen : (List.replicate n space ++ d :: r).length = n + 1 + r.length := by
        simp only [List.length_append, List.length_replicate, List.length_cons]
        omega
      have hskip : skipLeading (List.replicate n space ++ d :: r ++ [0#8])
          (List.replicate n space ++ d :: r).length
          ((List.replicate n space ++ d :: r).length + 1) 0 = some n := by
        rw [List.append_assoc]
        exact skipLeading_line hd (by omega)
      have hget : (List.replicate n space ++ d :: r ++ [0#8])[n]? = some d := by
        rw [List.append_assoc, List.getElem?_append_right (Nat.le_of_eq List.length_replicate),
          List.length_replicate, Nat.sub_self]
        rfl
      obtain ⟨t, ht, hsplit⟩ : ∃ t, splitLoop (List.replicate n space ++ d :: r).length
          (List.replicate n space ++ d :: r).length ((List.replicate n space).length + [d].length)
          ⟨List.replicate n space ++ ([d] ++ (r ++ [0#8])),
            some n :: List.replicate (shellArgCnt - 1) none, min (0 + 1) shellArgCnt⟩ = some t ∧
          SplitTo (List.replicate n space) (some n :: List.replicate (shellArgCnt - 1) none) 0
            (words space ([d] ++ r)) t :=
        splitLoop_words (by rw [hlen, List.length_replicate, List.length_singleton]) (by omega) hzero
          (by simpa using Ne.symm hd) (by simp) rfl (fun _ => by rw [List.length_replicate]; rfl)
      have hargc : t.argc = min (words space (d :: r)).length shellArgCnt := by
        rw [hsplit.argc, Nat.zero_add]
        rfl
      have hpos : 0 < (words space (d :: r)).length :=
        List.length_pos_iff.mpr (words_cons_ne_nil hd)
      refine ⟨t, ?_, ?_, fun k hk => ?_⟩
      · rw [shellSplitCmdToken_eq hline hskip, splitLoop_char (by omega) hget hd, ← ht,
          List.length_replicate, List.append_assoc]
        rfl
      · rw [hargc, Nat.max_eq_right]
        exact Nat.le_min.mpr ⟨hpos, by decide⟩
      · obtain ⟨hk, hcnt⟩ := Nat.lt_min.mp (hargc ▸ hk)
        have hpoint := hsplit.points k _ (List.getElem?_eq_getElem hk) (by omega)
        rw [Nat.zero_add] at hpoint
        rwa [List.getD_eq_getElem?_getD, List.getElem?_eq_getElem hk, Option.getD_some]

/-- The arguments are the first words of the line as strings, or one empty string when it has none. No
byte behind the terminator is read, and no entry behind the last is written. -/
theorem shellSplitCmdToken_words (hline : 0#8 ∉ line) :
    ∃ t, shellSplitCmdToken (line ++ [0#8]) (List.replicate shellArgCnt none) = some t ∧
      t.argc = max 1 (min (words space line).length shellArgCnt) ∧
      ∀ k < t.argc, ∃ p, t.argv[k]? = some (some p) ∧
        stringAt t.cmd p = some ((words space line).getD k []) :=
  shellSplitCmdToken_spec hline

/-- The line `" ls  x "` has two arguments. -/
theorem shellSplitCmdToken_ls :
    ∃ t, shellSplitCmdToken ([32#8, 108#8, 115#8, 32#8, 32#8, 120#8, 32#8] ++ [0#8])
        (List.replicate shellArgCnt none) = some t ∧
      t.argc = max 1 (min 2 shellArgCnt) ∧ ∀ k < t.argc, ∃ p, t.argv[k]? = some (some p) ∧
        stringAt t.cmd p = some ([[108#8, 115#8], [120#8]].getD k []) :=
  shellSplitCmdToken_words (by decide)

end Line

end Tenok
