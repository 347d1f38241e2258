import Mathlib.Data.List.Pairwise

/-!
Circular doubly linked lists in a store of links. The nodes of a store need not be
independent cells: in raw memory the fields of two nodes can overlap, so the frame
laws ask that two nodes are apart.
-/
namespace Ring
universe u v

/-- A store that gives each node two links. -/
class LinkStore (σ : Type u) (ι : outParam (Type v)) where
  next : σ → ι → ι
  prev : σ → ι → ι
  setNext : σ → ι → ι → σ
  setPrev : σ → ι → ι → σ
  /-- The links of the two nodes share no memory. -/
  Apart : ι → ι → Prop
  apart_ne : ∀ {a b}, Apart a b → a ≠ b
  apart_symm : ∀ {a b}, Apart a b → Apart b a
  next_setNext_self : ∀ s a v, next (setNext s a v) a = v
  prev_setNext_self : ∀ s a v, prev (setNext s a v) a = prev s a
  next_setPrev_self : ∀ s a v, next (setPrev s a v) a = next s a
  prev_setPrev_self : ∀ s a v, prev (setPrev s a v) a = v
  next_setNext_apart : ∀ s {a b} v, Apart a b → next (setNext s a v) b = next s b
  prev_setNext_apart : ∀ s {a b} v, Apart a b → prev (setNext s a v) b = prev s b
  next_setPrev_apart : ∀ s {a b} v, Apart a b → next (setPrev s a v) b = next s b
  prev_setPrev_apart : ∀ s {a b} v, Apart a b → prev (setPrev s a v) b = prev s b

export LinkStore (next prev setNext setPrev Apart)

variable {σ : Type u} {ι : Type v} [LinkStore σ ι] {s s' : σ} {a b e new head : ι}
  {l l' : List ι}

/-- Distinct nodes of the set are apart. -/
def Family (σ : Type u) {ι : Type v} [LinkStore σ ι] (N : Set ι) : Prop :=
  ∀ a ∈ N, ∀ b ∈ N, a ≠ b → Apart σ a b

section Update
variable [DecidableEq ι] {N : Set ι} (hN : Family σ N) (ha : a ∈ N) (hb : b ∈ N)
include hN ha hb

theorem next_setNext (s : σ) (v : ι) :
    next (setNext s a v) b = if b = a then v else next s b := by
  split
  · next h => rw [h, LinkStore.next_setNext_self]
  · next h => exact LinkStore.next_setNext_apart s v (hN a ha b hb (Ne.symm h))

theorem prev_setPrev (s : σ) (v : ι) :
    prev (setPrev s a v) b = if b = a then v else prev s b := by
  split
  · next h => rw [h, LinkStore.prev_setPrev_self]
  · next h => exact LinkStore.prev_setPrev_apart s v (hN a ha b hb (Ne.symm h))

theorem prev_setNext (s : σ) (v : ι) : prev (setNext s a v) b = prev s b := by
  by_cases h : a = b
  · rw [h, LinkStore.prev_setNext_self]
  · exact LinkStore.prev_setNext_apart s v (hN a ha b hb h)

theorem next_setPrev (s : σ) (v : ι) : next (setPrev s a v) b = next s b := by
  by_cases h : a = b
  · rw [h, LinkStore.next_setPrev_self]
  · exact LinkStore.next_setPrev_apart s v (hN a ha b hb h)

end Update

/-- Following the links from `a` leads through `l` to `b`, and back. -/
def Segment (s : σ) : ι → List ι → ι → Prop
  | a, [], b => next s a = b ∧ prev s b = a
  | a, x :: l, b => next s a = x ∧ prev s x = a ∧ Segment s x l b

theorem segment_append : Segment s a (l ++ e :: l') b ↔ Segment s a l e ∧ Segment s e l' b := by
  induction l generalizing a with
  | nil => simp only [List.nil_append, Segment, and_assoc]
  | cons x l ih => simp only [List.cons_append, Segment, ih, and_assoc]

theorem Segment.frame (h : Segment s a l b)
    (hnext : ∀ x ∈ a :: l, next s' x = next s x)
    (hprev : ∀ x ∈ b :: l, prev s' x = prev s x) : Segment s' a l b := by
  induction l generalizing a with
  | nil => exact ⟨(hnext a (by simp)).trans h.1, (hprev b (by simp)).trans h.2⟩
  | cons x l ih =>
      refine ⟨(hnext a (by simp)).trans h.1, (hprev x (by simp)).trans h.2.1, ih h.2.2 ?_ ?_⟩
      · exact fun y hy => hnext y (List.mem_cons_of_mem _ hy)
      · intro y hy
        apply hprev y
        cases List.mem_cons.mp hy with
        | inl hb => simp [hb]
        | inr hl => simp [hl]

/-- Following the links from `a` leads through `l` to `b`. -/
def Path (s : σ) : ι → List ι → ι → Prop
  | a, [], b => next s a = b
  | a, x :: l, b => next s a = x ∧ Path s x l b

theorem Segment.path (h : Segment s a l b) : Path s a l b := by
  induction l generalizing a with
  | nil => exact h.1
  | cons x l ih => exact ⟨h.1, ih h.2.2⟩

theorem path_append : Path s a (l ++ e :: l') b ↔ Path s a l e ∧ Path s e l' b := by
  induction l generalizing a with
  | nil => exact Iff.rfl
  | cons x l ih => simp only [List.cons_append, Path, ih, and_assoc]

theorem Path.frame (h : Path s a l b) (hnext : ∀ x ∈ a :: l, next s' x = next s x) :
    Path s' a l b := by
  induction l generalizing a with
  | nil => exact (hnext a (by simp)).trans h
  | cons x l ih =>
      exact ⟨(hnext a (by simp)).trans h.1, ih h.2 fun y hy => hnext y (List.mem_cons_of_mem _ hy)⟩

theorem Path.redirect (h : Path s a l b) (hnd : (a :: l).Nodup)
    (hnext : ∀ x ∈ a :: l, x ≠ (a :: l).getLast (by simp) → next s' x = next s x)
    (hlast : next s' ((a :: l).getLast (by simp)) = e) : Path s' a l e := by
  induction l generalizing a with
  | nil => exact hlast
  | cons x l ih =>
      have hmem : (a :: x :: l).getLast (by simp) ∈ x :: l := by
        rw [List.getLast_cons (by simp)]
        exact List.getLast_mem _
      have hne : a ≠ (a :: x :: l).getLast (by simp) := fun h =>
        (List.nodup_cons.mp hnd).1 (h ▸ hmem)
      refine ⟨(hnext a (by simp) hne).trans h.1, ih h.2 (List.nodup_cons.mp hnd).2 ?_ ?_⟩
      · intro y hy hlast'
        refine hnext y (List.mem_cons_of_mem _ hy) ?_
        rwa [List.getLast_cons (by simp)]
      · rwa [List.getLast_cons (by simp)] at hlast

theorem Segment.prev_mem (h : Segment s a l b) : prev s b ∈ a :: l := by
  induction l generalizing a with
  | nil => simp [h.2]
  | cons x l ih => exact List.mem_cons_of_mem _ (ih h.2.2)

theorem Segment.next_mem (h : Segment s a l b) : next s a ∈ l ++ [b] := by
  cases l with
  | nil => simp [h.1]
  | cons x l => simp [h.1]

theorem Segment.last_links (h : Segment s a l b) :
    prev s b = l.getLastD a ∧ next s (l.getLastD a) = b := by
  induction l generalizing a with
  | nil => exact ⟨h.2, h.1⟩
  | cons x l ih =>
      rw [List.getLastD_cons]
      exact ih h.2.2

theorem Segment.snoc (h : Segment s a l b) (hnd : (a :: l).Nodup)
    (hnext : ∀ x ∈ a :: l, x ≠ prev s b → next s' x = next s x)
    (hprev : ∀ x ∈ l, prev s' x = prev s x)
    (hlast : next s' (prev s b) = new) (hback : prev s' new = prev s b)
    (hnew : next s' new = b) (hend : prev s' b = new) : Segment s' a (l ++ [new]) b := by
  induction l generalizing a with
  | nil => exact ⟨h.2 ▸ hlast, hback.trans h.2, hnew, hend⟩
  | cons x l ih =>
      have hne : a ≠ prev s b := by
        intro ha
        exact (List.nodup_cons.mp hnd).1 (ha ▸ h.2.2.prev_mem)
      refine ⟨(hnext a (by simp) hne).trans h.1, (hprev x (by simp)).trans h.2.1,
        ih h.2.2 (List.nodup_cons.mp hnd).2 ?_ ?_⟩
      · exact fun y hy => hnext y (List.mem_cons_of_mem _ hy)
      · exact fun y hy => hprev y (List.mem_cons_of_mem _ hy)

theorem Segment.init_links {c : ι} (h : Segment s a l b) (h' : Segment s' a (l ++ [new]) c) :
    (∀ x ∈ l, prev s' x = prev s x) ∧ prev s' new = prev s b ∧
      ∀ x ∈ a :: l, x = prev s b ∨ next s' x = next s x := by
  induction l generalizing a with
  | nil => simp [h.2, h'.2.1]
  | cons x l ih =>
      obtain ⟨hprev, hnew, hnext⟩ := ih h.2.2 h'.2.2
      refine ⟨?_, hnew, ?_⟩
      · rw [List.forall_mem_cons]
        exact ⟨h'.2.1.trans h.2.1.symm, hprev⟩
      · rw [List.forall_mem_cons]
        exact ⟨Or.inr (h'.1.trans h.1.symm), hnext⟩

theorem Segment.unlink (h : Segment s a l e) (h' : Segment s e l' b)
    (hnda : (a :: (l ++ l')).Nodup) (hndb : (b :: (l ++ l')).Nodup)
    (hnext : ∀ x ∈ a :: (l ++ l'), x ≠ prev s e → next s' x = next s x)
    (hprev : ∀ x ∈ b :: (l ++ l'), x ≠ next s e → prev s' x = prev s x)
    (hfwd : next s' (prev s e) = next s e) (hback : prev s' (next s e) = prev s e) :
    Segment s' a (l ++ l') b := by
  induction l generalizing a with
  | nil =>
      have hpe : prev s e = a := h.2
      cases l' with
      | nil =>
          rw [h'.1, hpe] at hfwd hback
          exact ⟨hfwd, hback⟩
      | cons y l' =>
          rw [h'.1, hpe] at hfwd hback
          rw [h'.1] at hprev
          rw [hpe] at hnext
          simp only [List.nil_append, List.nodup_cons, List.mem_cons, not_or] at hnda hndb
          refine ⟨hfwd, hback, h'.2.2.frame ?_ ?_⟩
          · intro x hx
            apply hnext x (List.mem_cons_of_mem _ hx)
            rintro rfl
            cases List.mem_cons.mp hx with
            | inl hxy => exact hnda.1.1 hxy
            | inr hxl => exact hnda.1.2 hxl
          · intro x hx
            apply hprev x
            · simp only [List.nil_append, List.mem_cons] at hx ⊢
              exact hx.imp_right Or.inr
            · rintro rfl
              cases List.mem_cons.mp hx with
              | inl hxb => exact hndb.1.1 hxb.symm
              | inr hxl => exact hndb.2.1 hxl
  | cons x l ih =>
      have hmem := h.2.2.prev_mem
      have hmem' := h'.next_mem
      have hne : a ≠ prev s e := by
        rintro rfl
        exact (List.nodup_cons.mp hnda).1 (List.mem_append_left l' hmem)
      have hne' : x ≠ next s e := by
        rintro rfl
        simp only [List.cons_append, List.nodup_cons, List.mem_cons, List.mem_append] at hndb hmem'
        simp only [List.not_mem_nil, or_false] at hmem'
        exact hmem'.elim (fun hl => hndb.2.1 (Or.inr hl)) fun hb => hndb.1 (Or.inl hb.symm)
      rw [List.cons_append] at hnda hndb hnext hprev
      refine ⟨(hnext a (by simp) hne).trans h.1, (hprev x (by simp) hne').trans h.2.1,
        ih h.2.2 (List.nodup_cons.mp hnda).2 ?_ ?_ ?_⟩
      · exact hndb.sublist ((List.sublist_cons_self x _).cons_cons b)
      · exact fun y hy => hnext y (List.mem_cons_of_mem _ hy)
      · intro y hy
        apply hprev y
        cases List.mem_cons.mp hy with
        | inl hb => simp [hb]
        | inr hl => exact List.mem_cons_of_mem _ (List.mem_cons_of_mem _ hl)

/-- The circular list at `head` with the nodes `l`. -/
structure IsRing (s : σ) (head : ι) (l : List ι) : Prop where
  segment : Segment s head l head
  apart : (head :: l).Pairwise (Apart σ)

theorem IsRing.nodup (h : IsRing s head l) : (head :: l).Nodup :=
  h.apart.imp LinkStore.apart_ne

theorem IsRing.head_notMem (h : IsRing s head l) : head ∉ l := (List.nodup_cons.mp h.nodup).1

theorem family_of_pairwise (h : l.Pairwise (Apart σ)) : Family σ {x | x ∈ l} := by
  have : Std.Symm (@Apart σ ι _) := ⟨fun _ _ => LinkStore.apart_symm⟩
  exact fun a ha b hb hne => h.forall ha hb hne

theorem IsRing.frame (h : IsRing s head l) (hnext : ∀ x ∈ head :: l, next s' x = next s x)
    (hprev : ∀ x ∈ head :: l, prev s' x = prev s x) : IsRing s' head l :=
  ⟨h.segment.frame hnext hprev, h.apart⟩

theorem IsRing.next_head (h : IsRing s head l) : next s head = l.headD head := by
  cases l with
  | nil => exact h.segment.1
  | cons x l => exact h.segment.1

theorem IsRing.cut (h : IsRing s head (l ++ l')) :
    prev s (l'.headD head) = l.getLastD head ∧ next s (l.getLastD head) = l'.headD head := by
  cases l' with
  | nil =>
      have hsegment := h.segment
      rw [List.append_nil] at hsegment
      exact hsegment.last_links
  | cons x l' => exact (segment_append.mp h.segment).1.last_links

theorem IsRing.neighbours_mem (h : IsRing s head (l ++ e :: l')) :
    prev s e ∈ head :: (l ++ e :: l') ∧ next s e ∈ head :: (l ++ e :: l') := by
  obtain ⟨hfront, hback⟩ := segment_append.mp h.segment
  constructor
  · have hmem := hfront.prev_mem
    simp only [List.mem_cons, List.mem_append] at hmem ⊢
    exact hmem.imp_right Or.inl
  · have hmem := hback.next_mem
    simp only [List.mem_cons, List.mem_append, List.not_mem_nil, or_false] at hmem ⊢
    exact hmem.elim (fun hl => Or.inr (Or.inr (Or.inr hl))) Or.inl

/-- The store in which every node is a cell of its own. -/
structure Cells (ι : Type v) where
  next : ι → ι
  prev : ι → ι

instance Cells.linkStore {ι : Type v} [DecidableEq ι] : LinkStore (Cells ι) ι where
  next s a := s.next a
  prev s a := s.prev a
  setNext s a v := { s with next := Function.update s.next a v }
  setPrev s a v := { s with prev := Function.update s.prev a v }
  Apart a b := a ≠ b
  apart_ne h := h
  apart_symm h := h.symm
  next_setNext_self _ _ _ := Function.update_self ..
  prev_setNext_self _ _ _ := rfl
  next_setPrev_self _ _ _ := rfl
  prev_setPrev_self _ _ _ := Function.update_self ..
  next_setNext_apart _ _ _ _ h := Function.update_of_ne (Ne.symm h) ..
  prev_setNext_apart _ _ _ _ _ := rfl
  next_setPrev_apart _ _ _ _ _ := rfl
  prev_setPrev_apart _ _ _ _ h := Function.update_of_ne (Ne.symm h) ..

theorem family_cells {ι : Type v} [DecidableEq ι] (N : Set ι) : Family (Cells ι) N :=
  fun _ _ _ _ h => h

end Ring
