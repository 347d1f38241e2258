import Mathlib.Data.List.Nodup
import Mathlib.Logic.Function.Basic

/-!
Objects that several clients call at the same time. An atomic one serves each call at one moment
between its beginning and its end. Its histories are linearizable: the calls have an order in which
one client alone could have made them, and none comes before a call that had ended when it began.
-/
namespace SharedObject
universe u v w x
variable {σ : Type u} {C : Type v} {Op : Type w} {Res : Type x}

/-- What is seen of a call. -/
inductive Action (C : Type v) (Op : Type w) (Res : Type x)
  | call (c : C) (op : Op)
  | ret (c : C) (res : Res)
  deriving DecidableEq, Repr

def Action.client : Action C Op Res → C
  | .call c _ | .ret c _ => c

inductive Client (Op : Type w) (Res : Type x)
  | idle
  | called (op : Op)
  | served (op : Op) (res : Res)

structure State (σ : Type u) (C : Type v) (Op : Type w) (Res : Type x) where
  object : σ
  clients : C → Client Op Res

section Atomic
variable [DecidableEq C]

/-- The steps of an atomic object; `none` if nothing is seen of it. -/
inductive Step (spec : σ → Op → Res → σ → Prop) :
    State σ C Op Res → Option (Action C Op Res) → State σ C Op Res → Prop
  | call {s : State σ C Op Res} {c : C} {op : Op} (hidle : s.clients c = .idle) :
      Step spec s (some (.call c op))
        { s with clients := Function.update s.clients c (.called op) }
  | serve {s : State σ C Op Res} {c : C} {op : Op} {res : Res} {object : σ}
      (hcalled : s.clients c = .called op) (h : spec s.object op res object) :
      Step spec s none ⟨object, Function.update s.clients c (.served op res)⟩
  | ret {s : State σ C Op Res} {c : C} {op : Op} {res : Res}
      (hserved : s.clients c = .served op res) :
      Step spec s (some (.ret c res))
        { s with clients := Function.update s.clients c .idle }

inductive Run (spec : σ → Op → Res → σ → Prop) (start : State σ C Op Res) :
    List (Action C Op Res) → State σ C Op Res → Prop
  | nil : Run spec start [] start
  | step {history : List (Action C Op Res)} {s t : State σ C Op Res}
      {a : Option (Action C Op Res)} (h : Run spec start history s) (hstep : Step spec s a t) :
      Run spec start (history ++ a.toList) t

end Atomic

/-- The call that began at `i` ended at `j`. -/
structure Completed (history : List (Action C Op Res)) (i j : Nat) (c : C) (op : Op) (res : Res) :
    Prop where
  lt : i < j
  call : history[i]? = some (.call c op)
  ret : history[j]? = some (.ret c res)
  between : ∀ k a, i < k → k < j → history[k]? = some a → a.client ≠ c

def Serves (spec : σ → Op → Res → σ → Prop) : σ → List (Op × Res) → σ → Prop
  | s, [], t => s = t
  | s, (op, res) :: l, t => ∃ u, spec s op res u ∧ Serves spec u l t

/-- A call in the order, with the place in the history where it began. -/
structure Entry (Op : Type w) (Res : Type x) where
  began : Nat
  op : Op
  res : Res

/-- The order in which the object has served the calls of a history. Calls that have not ended may
be in it or not. -/
structure Linearizes (spec : σ → Op → Res → σ → Prop) (start : σ) (history : List (Action C Op Res))
    (order : List (Entry Op Res)) (object : σ) : Prop where
  serves : Serves spec start (order.map fun e => (e.op, e.res)) object
  called : ∀ e ∈ order, ∃ c, history[e.began]? = some (.call c e.op)
  once : (order.map Entry.began).Nodup
  complete : ∀ i j c op res, Completed history i j c op res → ⟨i, op, res⟩ ∈ order
  realTime : order.Pairwise fun e e' => ∀ j c op res,
    Completed history e'.began j c op res → ¬ j < e.began

/-- The object is as if one client alone had called it. -/
def Linearizable (spec : σ → Op → Res → σ → Prop) (start : σ) (history : List (Action C Op Res))
    (object : σ) : Prop :=
  ∃ order, Linearizes spec start history order object

variable {spec : σ → Op → Res → σ → Prop} {start object object' : σ}
  {history : List (Action C Op Res)} {order : List (Entry Op Res)} {l l' : List (Op × Res)}
  {i j i' j' : Nat} {c c' : C} {op op' : Op} {res res' : Res} {a : Action C Op Res}

theorem Serves.append (h : Serves spec start l object) (h' : Serves spec object l' object') :
    Serves spec start (l ++ l') object' := by
  induction l generalizing start with
  | nil =>
      obtain rfl : start = object := h
      exact h'
  | cons p l ih =>
      obtain ⟨u, hu, hrest⟩ := h
      exact ⟨u, hu, ih hrest⟩

theorem Serves.of_append (h : Serves spec start (l ++ l') object) :
    ∃ u, Serves spec start l u ∧ Serves spec u l' object := by
  induction l generalizing start with
  | nil => exact ⟨start, rfl, h⟩
  | cons p l ih =>
      obtain ⟨u, hu, hrest⟩ := h
      obtain ⟨v, hl, hl'⟩ := ih hrest
      exact ⟨v, ⟨u, hu, hl⟩, hl'⟩

theorem Serves.keeps {I : σ → Prop} (hkeeps : ∀ s op res t, I s → spec s op res t → I t)
    (h : Serves spec start l object) (hstart : I start) : I object := by
  induction l generalizing start with
  | nil =>
      obtain rfl : start = object := h
      exact hstart
  | cons p l ih =>
      obtain ⟨u, hu, hrest⟩ := h
      exact ih hrest (hkeeps _ _ _ _ hstart hu)

theorem getElem?_snoc {k : Nat} {b : Action C Op Res} (h : (history ++ [a])[k]? = some b) :
    history[k]? = some b ∨ (k = history.length ∧ b = a) := by
  rw [List.getElem?_append] at h
  split at h
  · exact Or.inl h
  · next hk =>
      obtain ⟨hlt, hb⟩ := List.getElem?_eq_some_iff.mp h
      have hk' : k = history.length := by
        rw [List.length_singleton] at hlt
        omega
      exact Or.inr ⟨hk', by simpa using hb.symm⟩

theorem Completed.snoc (h : Completed (history ++ [a]) i j c op res) :
    Completed history i j c op res ∨
      (j = history.length ∧ a = .ret c res ∧ history[i]? = some (.call c op) ∧
        ∀ k b, i < k → history[k]? = some b → b.client ≠ c) := by
  have hold : ∀ {k b}, history[k]? = some b → (history ++ [a])[k]? = some b := fun hk =>
    (List.getElem?_append_left (List.getElem?_eq_some_iff.mp hk).1).trans hk
  obtain hj | ⟨hj, hlast⟩ := getElem?_snoc h.ret
  · obtain hi | ⟨hi, -⟩ := getElem?_snoc h.call
    · exact Or.inl ⟨h.lt, hi, hj, fun k b hk hk' hb => h.between k b hk hk' (hold hb)⟩
    · have hlt := (List.getElem?_eq_some_iff.mp hj).1
      exact absurd h.lt (by omega)
  · obtain hi | ⟨hi, -⟩ := getElem?_snoc h.call
    · refine Or.inr ⟨hj, hlast.symm, hi, fun k b hk hb => h.between k b hk ?_ (hold hb)⟩
      exact hj ▸ (List.getElem?_eq_some_iff.mp hb).1
    · exact absurd h.lt (by omega)

/-- What the history and the order say of a client in a call. -/
def Underway (history : List (Action C Op Res)) (order : List (Entry Op Res)) (c : C) :
    Client Op Res → Prop
  | .idle => True
  | .called op => ∃ i, history[i]? = some (.call c op) ∧
      (∀ k b, i < k → history[k]? = some b → b.client ≠ c) ∧ i ∉ order.map Entry.began
  | .served op res => ∃ i, history[i]? = some (.call c op) ∧
      (∀ k b, i < k → history[k]? = some b → b.client ≠ c) ∧ ⟨i, op, res⟩ ∈ order

section Order
variable {client : Client Op Res}

theorem later_snoc (h : ∀ k b, i < k → history[k]? = some b → b.client ≠ c)
    (hne : a.client ≠ c) :
    ∀ k b, i < k → (history ++ [a])[k]? = some b → b.client ≠ c := by
  intro k b hk hb
  obtain hb | ⟨-, rfl⟩ := getElem?_snoc hb
  · exact h k b hk hb
  · exact hne

theorem call_snoc (h : history[i]? = some (.call c op)) :
    (history ++ [a])[i]? = some (.call c op) :=
  (List.getElem?_append_left (List.getElem?_eq_some_iff.mp h).1).trans h

theorem Underway.snoc (h : Underway history order c client) (hne : a.client ≠ c) :
    Underway (history ++ [a]) order c client := by
  cases client with
  | idle => trivial
  | called op =>
      obtain ⟨i, hi, hlater, hnot⟩ := h
      exact ⟨i, call_snoc hi, later_snoc hlater hne, hnot⟩
  | served op res =>
      obtain ⟨i, hi, hlater, hmem⟩ := h
      exact ⟨i, call_snoc hi, later_snoc hlater hne, hmem⟩

theorem Underway.serve (h : Underway history order c' client) (hne : c' ≠ c)
    (hi : history[i]? = some (.call c op)) :
    Underway history (order ++ [⟨i, op, res⟩]) c' client := by
  cases client with
  | idle => trivial
  | called op' =>
      obtain ⟨i', hi', hlater, hnot⟩ := h
      refine ⟨i', hi', hlater, fun hmem => ?_⟩
      obtain hmem | hmem := List.mem_append.mp (List.map_append ▸ hmem)
      · exact hnot hmem
      · obtain rfl := List.mem_singleton.mp hmem
        rw [hi] at hi'
        cases hi'
        exact hne rfl
  | served op' res' =>
      obtain ⟨i', hi', hlater, hmem⟩ := h
      exact ⟨i', hi', hlater, List.mem_append_left _ hmem⟩

theorem underway_update [DecidableEq C] {clients : C → Client Op Res}
    (hothers : ∀ c' ≠ c, Underway history order c' (clients c'))
    (hclient : Underway history order c client) (c' : C) :
    Underway history order c' (Function.update clients c client c') := by
  by_cases hc : c' = c
  · subst hc
    rwa [Function.update_self]
  · rw [Function.update_of_ne hc]
    exact hothers c' hc

theorem Linearizes.snoc (h : Linearizes spec start history order object)
    (hcomplete : ∀ i c op res, a = .ret c res → history[i]? = some (.call c op) →
      (∀ k b, i < k → history[k]? = some b → b.client ≠ c) → ⟨i, op, res⟩ ∈ order) :
    Linearizes spec start (history ++ [a]) order object where
  serves := h.serves
  called e he := by
    obtain ⟨c, hc⟩ := h.called e he
    exact ⟨c, call_snoc hc⟩
  once := h.once
  complete i j c op res hc := by
    obtain hold | ⟨-, ha, hi, hlater⟩ := hc.snoc
    · exact h.complete i j c op res hold
    · exact hcomplete i c op res ha hi hlater
  realTime := by
    refine h.realTime.imp_of_mem fun he _ hreal j c op res hc => ?_
    obtain hold | ⟨rfl, -⟩ := hc.snoc
    · exact hreal j c op res hold
    · obtain ⟨_, hbegan⟩ := h.called _ he
      have hlt := (List.getElem?_eq_some_iff.mp hbegan).1
      omega

theorem Linearizes.serve (h : Linearizes spec start history order object)
    (hi : history[i]? = some (.call c op))
    (hlater : ∀ k b, i < k → history[k]? = some b → b.client ≠ c)
    (hnot : i ∉ order.map Entry.began) (hspec : spec object op res object') :
    Linearizes spec start history (order ++ [⟨i, op, res⟩]) object' where
  serves := by
    rw [List.map_append]
    exact h.serves.append ⟨object', hspec, rfl⟩
  called e he := by
    obtain he | he := List.mem_append.mp he
    · exact h.called e he
    · obtain rfl := List.mem_singleton.mp he
      exact ⟨c, hi⟩
  once := by
    rw [List.map_append]
    exact List.Nodup.append h.once (List.nodup_singleton i) (List.disjoint_singleton.mpr hnot)
  complete i j c op res hc := List.mem_append_left _ (h.complete i j c op res hc)
  realTime := by
    refine List.pairwise_append.mpr ⟨h.realTime, List.pairwise_singleton _ _, ?_⟩
    intro e _ e' he' j c' op' res' hc _
    obtain rfl := List.mem_singleton.mp he'
    obtain rfl : c' = c := by
      have hsame := hc.call.symm.trans hi
      cases hsame
      rfl
    exact hlater j _ hc.lt hc.ret rfl

end Order

theorem Run.linearizable [DecidableEq C] {s : State σ C Op Res}
    (h : Run spec ⟨start, fun _ => .idle⟩ history s) :
    Linearizable spec start history s.object := by
  suffices hall : ∃ order, Linearizes spec start history order s.object ∧
      ∀ c, Underway history order c (s.clients c) by
    obtain ⟨order, hlin, -⟩ := hall
    exact ⟨order, hlin⟩
  induction h with
  | nil =>
      refine ⟨[], ⟨rfl, by simp, List.nodup_nil, fun i j c op res hc => ?_, .nil⟩, fun _ => trivial⟩
      cases hc.call
  | @step history s t a _ hstep ih =>
      obtain ⟨order, hlin, hunder⟩ := ih
      cases hstep with
      | @call c op hidle =>
          refine ⟨order, hlin.snoc (fun i c op res ha => by cases ha), underway_update
            (fun c' hne => (hunder c').snoc (Ne.symm hne)) ⟨history.length, by simp, ?_, ?_⟩⟩
          · intro k b hk hb
            have hlt := (List.getElem?_eq_some_iff.mp hb).1
            rw [Option.toList_some, List.length_append, List.length_singleton] at hlt
            omega
          · intro hmem
            obtain ⟨e, he, hbegan⟩ := List.mem_map.mp hmem
            obtain ⟨_, hcall⟩ := hlin.called e he
            have hlt := (List.getElem?_eq_some_iff.mp hcall).1
            omega
      | @serve c op res object hcalled hspec =>
          have hc := hunder c
          rw [hcalled] at hc
          obtain ⟨i, hi, hlater, hnot⟩ := hc
          rw [Option.toList_none, List.append_nil]
          exact ⟨_, hlin.serve hi hlater hnot hspec, underway_update
            (fun c' hne => (hunder c').serve hne hi)
            ⟨i, hi, hlater, List.mem_append_right _ (List.mem_singleton.mpr rfl)⟩⟩
      | @ret c op res hserved =>
          have hc := hunder c
          rw [hserved] at hc
          obtain ⟨i, hi, hlater, hmem⟩ := hc
          refine ⟨order, hlin.snoc fun i' c' op' res' ha hi' hlater' => ?_, underway_update
            (fun c' hne => (hunder c').snoc (Ne.symm hne)) trivial⟩
          cases ha
          obtain rfl : i' = i := by
            obtain hlt | rfl | hlt := Nat.lt_trichotomy i' i
            · exact absurd rfl (hlater' i _ hlt hi)
            · rfl
            · exact absurd rfl (hlater i' _ hlt hi')
          cases hi'.symm.trans hi
          exact hmem

theorem Linearizes.ordered (h : Linearizes spec start history order object)
    (hc : Completed history i j c op res) (hc' : Completed history i' j' c' op' res')
    (hne : i ≠ i') :
    (∃ l₁ l₂ l₃, order = l₁ ++ ⟨i, op, res⟩ :: (l₂ ++ ⟨i', op', res'⟩ :: l₃)) ∨
      ∃ l₁ l₂ l₃, order = l₁ ++ ⟨i', op', res'⟩ :: (l₂ ++ ⟨i, op, res⟩ :: l₃) := by
  obtain ⟨l₁, l₂, rfl⟩ := List.append_of_mem (h.complete _ _ _ _ _ hc)
  obtain hmem | hmem := List.mem_append.mp (h.complete _ _ _ _ _ hc')
  · obtain ⟨l₃, l₄, rfl⟩ := List.append_of_mem hmem
    exact Or.inr ⟨l₃, l₄, l₂, by simp⟩
  · obtain heq | hmem := List.mem_cons.mp hmem
    · exact absurd (congrArg Entry.began heq).symm hne
    · obtain ⟨l₃, l₄, rfl⟩ := List.append_of_mem hmem
      exact Or.inl ⟨l₁, l₃, l₄, rfl⟩

theorem Linearizes.before (h : Linearizes spec start history order object)
    (hc : Completed history i j c op res) (hc' : Completed history i' j' c' op' res')
    (hlt : j < i') :
    ∃ l₁ l₂ l₃, order = l₁ ++ ⟨i, op, res⟩ :: (l₂ ++ ⟨i', op', res'⟩ :: l₃) := by
  obtain hfirst | ⟨l₁, l₂, l₃, rfl⟩ := h.ordered hc hc' (Nat.ne_of_lt (Nat.lt_trans hc.lt hlt))
  · exact hfirst
  · have hreal := (List.pairwise_cons.mp (List.pairwise_append.mp h.realTime).2.1).1 ⟨i, op, res⟩
      (List.mem_append_right _ List.mem_cons_self)
    exact absurd hlt (hreal j c op res hc)

theorem Linearizes.established {I P : σ → Prop} {l₁ l₂ l₃ : List (Entry Op Res)}
    (h : Linearizes spec start history order object) (hstart : I start)
    (hkeeps : ∀ s op res t, I s → spec s op res t → I t)
    (hest : ∀ s t, I s → spec s op res t → P t)
    (hstable : ∀ s op res t, I s → P s → spec s op res t → P t)
    (horder : order = l₁ ++ ⟨i, op, res⟩ :: (l₂ ++ ⟨i', op', res'⟩ :: l₃)) :
    ∃ s t, I s ∧ P s ∧ spec s op' res' t := by
  have hserves := h.serves
  rw [horder, List.map_append] at hserves
  obtain ⟨s, hbefore, u, hspec, hrest⟩ := hserves.of_append
  rw [List.map_append] at hrest
  obtain ⟨v, hbetween, w, hspec', -⟩ := hrest.of_append
  have hs := hbefore.keeps hkeeps hstart
  obtain ⟨hv, hP⟩ := hbetween.keeps (I := fun s => I s ∧ P s)
    (fun s op res t hs hspec => ⟨hkeeps s op res t hs.1 hspec, hstable s op res t hs.1 hs.2 hspec⟩)
    ⟨hkeeps s op res u hs hspec, hest s u hs hspec⟩
  exact ⟨v, w, hv, hP, hspec'⟩

end SharedObject
