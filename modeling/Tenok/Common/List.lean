import Mathlib.Data.Set.Insert
import Tenok.Lib.Queues

/-!
`include/common/list.h`: intrusive circular lists. A `struct list_head` is a node of
a link store; `container_of` belongs to the users of the list. A loop takes the number
of iterations it may make and gives `none` if it is still running after them.
-/
namespace Tenok
open Ring
universe u v w x
variable {σ : Type u} {ι : Type v} [LinkStore σ ι]

def initListHead (s : σ) (list : ι) : σ :=
  let s := setPrev s list list
  setNext s list list

def listEmpty [DecidableEq ι] (s : σ) (head : ι) : Bool := decide (next s head = head)

def listDel (s : σ) (entry : ι) : σ :=
  let s := setPrev s (next s entry) (prev s entry)
  setNext s (prev s entry) (next s entry)

def listAdd (s : σ) (new head : ι) : σ :=
  let s := setPrev s new (prev s head)
  let s := setNext s new head
  let s := setNext s (prev s head) new
  setPrev s head new

def listMove (s : σ) (list newHead : ι) : σ := listAdd (listDel s list) list newHead

/-- `list_for_each` and `list_for_each_entry` from position `pos` on. The body either
goes on with a new state or leaves the loop with a result. -/
def listForEach [DecidableEq ι] {τ : Type w} {γ : Type x} (links : τ → σ) (head : ι)
    (body : τ → ι → τ ⊕ γ) : Nat → τ → ι → Option (τ ⊕ γ)
  | 0, _, _ => none
  | n + 1, t, pos =>
      if pos = head then some (.inl t)
      else match body t pos with
        | .inl t' => listForEach links head body n t' (next (links t') pos)
        | .inr r => some (.inr r)

/-- The loop as a pass over the nodes of a list. -/
def forEach {τ : Type w} {γ : Type x} (body : τ → ι → τ ⊕ γ) : τ → List ι → τ ⊕ γ
  | t, [] => .inl t
  | t, pos :: l => match body t pos with
      | .inl t' => forEach body t' l
      | .inr r => .inr r

/-- `list_for_each_safe` at `pos` with the position after it already read. The body gives
`none` where it follows a pointer that is not one. -/
def listForEachSafe [DecidableEq ι] {τ : Type w} (links : τ → σ) (head : ι)
    (body : τ → ι → Option τ) : Nat → τ → ι → ι → Option τ
  | 0, _, _, _ => none
  | n + 1, t, pos, nxt =>
      if pos = head then some t
      else (body t pos).bind fun t' =>
        listForEachSafe links head body n t' nxt (next (links t') nxt)

section Links
variable [DecidableEq ι] {s : σ} {a e new head : ι} {N : Set ι} (hN : Family σ N) (ha : a ∈ N)
include hN ha

theorem next_listAdd (hnew : new ∈ N) (hhead : head ∈ N) (hprev : prev s head ∈ N)
    (hne : head ≠ new) : next (listAdd s new head) a =
      if a = prev s head then new else if a = new then head else next s a := by
  have hlast : prev (setNext (setPrev s new (prev s head)) new head) head = prev s head := by
    rw [prev_setNext hN hnew hhead, prev_setPrev hN hnew hhead, if_neg hne]
  rw [listAdd, hlast, next_setPrev hN hhead ha, next_setNext hN hprev ha, next_setNext hN hnew ha,
    next_setPrev hN hnew ha]

theorem prev_listAdd (hnew : new ∈ N) (hhead : head ∈ N) (hprev : prev s head ∈ N)
    (hne : head ≠ new) : prev (listAdd s new head) a =
      if a = head then new else if a = new then prev s head else prev s a := by
  have hlast : prev (setNext (setPrev s new (prev s head)) new head) head = prev s head := by
    rw [prev_setNext hN hnew hhead, prev_setPrev hN hnew hhead, if_neg hne]
  rw [listAdd, hlast, prev_setPrev hN hhead ha, prev_setNext hN hprev ha, prev_setNext hN hnew ha,
    prev_setPrev hN hnew ha]

private theorem links_entry (hnext : next s a ∈ N) :
    next (setPrev s (next s a) (prev s a)) a = next s a ∧
      prev (setPrev s (next s a) (prev s a)) a = prev s a := by
  refine ⟨next_setPrev hN hnext ha _ _, ?_⟩
  rw [prev_setPrev hN hnext ha]
  exact ite_self _

theorem next_listDel (he : e ∈ N) (hnext : next s e ∈ N) (hprev : prev s e ∈ N) :
    next (listDel s e) a = if a = prev s e then next s e else next s a := by
  obtain ⟨hn, hp⟩ := links_entry hN he hnext
  rw [listDel, hn, hp, next_setNext hN hprev ha, next_setPrev hN hnext ha]

theorem prev_listDel (he : e ∈ N) (hnext : next s e ∈ N) (hprev : prev s e ∈ N) :
    prev (listDel s e) a = if a = next s e then prev s e else prev s a := by
  obtain ⟨hn, hp⟩ := links_entry hN he hnext
  rw [listDel, hn, hp, prev_setNext hN hprev ha, prev_setPrev hN hnext ha]

end Links

section Rings
variable {s : σ} {e new head : ι} {l l' : List ι}

theorem initListHead_isRing (s : σ) (list : ι) : IsRing (initListHead s list) list [] := by
  refine ⟨⟨LinkStore.next_setNext_self .., ?_⟩, List.pairwise_singleton ..⟩
  exact (LinkStore.prev_setNext_self ..).trans (LinkStore.prev_setPrev_self ..)

theorem listEmpty_iff [DecidableEq ι] (h : IsRing s head l) : listEmpty s head = true ↔ l = [] := by
  rw [listEmpty, decide_eq_true_iff]
  cases l with
  | nil => simp [h.segment.1]
  | cons x l =>
      have hne : x ≠ head := fun hx => h.head_notMem (by simp [hx])
      simp [h.segment.1, hne]

theorem listAdd_isRing (h : IsRing s head l) (hnew : ∀ x ∈ head :: l, Apart σ new x) :
    IsRing (listAdd s new head) head (l ++ [new]) := by
  classical
  have hpair : (new :: head :: l).Pairwise (Apart σ) := List.pairwise_cons.mpr ⟨hnew, h.apart⟩
  have hN := family_of_pairwise hpair
  have hprev : prev s head ∈ head :: l := h.segment.prev_mem
  have hne : head ≠ new := (LinkStore.apart_ne (hnew head (by simp))).symm
  have hnotin : ∀ x ∈ head :: l, x ≠ new := fun x hx => (LinkStore.apart_ne (hnew x hx)).symm
  have hmn : new ∈ new :: head :: l := by simp
  have hmh : head ∈ new :: head :: l := by simp
  have hmp : prev s head ∈ new :: head :: l := List.mem_cons_of_mem _ hprev
  have hnx := fun x (hx : x ∈ new :: head :: l) => next_listAdd hN hx hmn hmh hmp hne
  have hpx := fun x (hx : x ∈ new :: head :: l) => prev_listAdd hN hx hmn hmh hmp hne
  refine ⟨h.segment.snoc h.nodup ?_ ?_ ?_ ?_ ?_ ?_, ?_⟩
  · intro x hx hlast
    rw [hnx x (List.mem_cons_of_mem _ hx), if_neg hlast, if_neg (hnotin x hx)]
  · intro x hx
    have hxh : x ≠ head := fun hxh => h.head_notMem (hxh ▸ hx)
    rw [hpx x (by simp [hx]), if_neg hxh, if_neg (hnotin x (List.mem_cons_of_mem _ hx))]
  · rw [hnx _ hmp, if_pos rfl]
  · rw [hpx new hmn, if_neg hne.symm, if_pos rfl]
  · rw [hnx new hmn, if_neg (hnotin _ hprev).symm, if_pos rfl]
  · rw [hpx head hmh, if_pos rfl]
  · rw [← List.cons_append, List.pairwise_append]
    refine ⟨h.apart, List.pairwise_singleton .., fun x hx y hy => ?_⟩
    rw [List.mem_singleton.mp hy]
    exact LinkStore.apart_symm (hnew x hx)

theorem listDel_isRing (h : IsRing s head (l ++ e :: l')) :
    IsRing (listDel s e) head (l ++ l') := by
  classical
  have hN := family_of_pairwise h.apart
  obtain ⟨hfront, hback⟩ := segment_append.mp h.segment
  have hsub : List.Sublist (head :: (l ++ l')) (head :: (l ++ e :: l')) :=
    ((List.Sublist.refl l).append (List.sublist_cons_self e l')).cons_cons head
  have hnd : (head :: (l ++ l')).Nodup := h.nodup.sublist hsub
  obtain ⟨hprev, hnext⟩ := h.neighbours_mem
  have he : e ∈ head :: (l ++ e :: l') := by simp
  have hnx := fun x (hx : x ∈ head :: (l ++ e :: l')) => next_listDel hN hx he hnext hprev
  have hpx := fun x (hx : x ∈ head :: (l ++ e :: l')) => prev_listDel hN hx he hnext hprev
  refine ⟨hfront.unlink hback hnd hnd ?_ ?_ ?_ ?_, h.apart.sublist hsub⟩
  · intro x hx hlast
    rw [hnx x (hsub.subset hx), if_neg hlast]
  · intro x hx hfirst
    rw [hpx x (hsub.subset hx), if_neg hfirst]
  · rw [hnx _ hprev, if_pos rfl]
  · rw [hpx _ hnext, if_pos rfl]

end Rings

section Families
open Queues
variable {η : Type u} {α : Type v} [DecidableEq η] [DecidableEq α] {s : Cells (η ⊕ α)}
  {V : Set η} {L : η → List α} {a : α} {h : η}

theorem listAdd_rings (r : Rings s V L) (hV : h ∈ V) (ha : ∀ g, a ∉ L g) :
    Rings (listAdd s (.inr a) (.inl h)) V (enqueue L a h) := by
  have hring := r.ring h hV
  have hfree : ∀ g, Sum.inr a ∉ Sum.inl g :: (L g).map (Sum.inr : α → η ⊕ α) := by simpa using ha
  refine ⟨fun g hg => ?_, ?_, ?_⟩
  · by_cases hgh : g = h
    · subst hgh
      have hadd : IsRing (listAdd s (.inr a) (.inl g)) (.inl g) ((L g).map .inr ++ [.inr a]) :=
        listAdd_isRing hring fun x hx hax => hfree g (hax ▸ hx)
      simpa [enqueue] using hadd
    · rw [enqueue_of_ne hgh]
      have hN : Family (Cells (η ⊕ α)) Set.univ := family_cells _
      have hm := fun x : η ⊕ α => Set.mem_univ x
      have hother : ∀ x ∈ Sum.inl g :: (L g).map Sum.inr, ∀ y ∈ Sum.inl h :: (L h).map Sum.inr,
          x ≠ y := fun x hx y hy hxy => hgh (r.eq_of_mem hx (hxy ▸ hy))
      have hnew : ∀ x ∈ Sum.inl g :: (L g).map Sum.inr, x ≠ Sum.inr a :=
        fun x hx hxa => hfree g (hxa ▸ hx)
      refine r.ring_frame hg (fun x hx => ?_) fun x hx => ?_
      · have hnext := next_listAdd hN (hm x) (hm (.inr a)) (hm (.inl h)) (hm _) (s := s) (by simp)
        rwa [if_neg (hother x hx _ hring.segment.prev_mem), if_neg (hnew x hx)] at hnext
      · have hprev := prev_listAdd hN (hm x) (hm (.inr a)) (hm (.inl h)) (hm _) (s := s) (by simp)
        rwa [if_neg (hother x hx (.inl h) (by simp)), if_neg (hnew x hx)] at hprev
  · intro g g' b hb hb'
    rw [mem_enqueue] at hb hb'
    grind [r.unique]
  · intro g b hb
    rw [mem_enqueue] at hb
    grind [r.inUse]

theorem listDel_rings (r : Rings s V L) (ha : a ∈ L h) :
    Rings (listDel s (.inr a)) V (dequeue L a) := by
  have hring := r.ring h (r.inUse ha)
  obtain ⟨l, l', hl, hnotin⟩ := List.eq_append_cons_of_mem ha
  have herase : dequeue L a h = l ++ l' := by
    rw [dequeue, hl, List.erase_append_right _ hnotin, List.erase_cons_head]
  rw [hl, List.map_append, List.map_cons] at hring
  refine ⟨fun g hg => ?_, ?_, ?_⟩
  · by_cases hgh : g = h
    · subst hgh
      rw [herase, List.map_append]
      exact listDel_isRing hring
    · have hga : a ∉ L g := fun hga => hgh (r.unique hga ha)
      rw [dequeue_of_notMem hga]
      have hN : Family (Cells (η ⊕ α)) Set.univ := family_cells _
      have hm := fun x : η ⊕ α => Set.mem_univ x
      have hother : ∀ x ∈ Sum.inl g :: (L g).map Sum.inr, ∀ y ∈ Sum.inl h :: (L h).map Sum.inr,
          x ≠ y := fun x hx y hy hxy => hgh (r.eq_of_mem hx (hxy ▸ hy))
      rw [hl, List.map_append, List.map_cons] at hother
      obtain ⟨hprev, hnext⟩ := hring.neighbours_mem
      refine r.ring_frame hg (fun x hx => ?_) fun x hx => ?_
      · have hx' := next_listDel hN (hm x) (hm (Sum.inr a)) (hm _) (hm _) (s := s)
        rwa [if_neg (hother x hx _ hprev)] at hx'
      · have hx' := prev_listDel hN (hm x) (hm (Sum.inr a)) (hm _) (hm _) (s := s)
        rwa [if_neg (hother x hx _ hnext)] at hx'
  · intro g g' b hb hb'
    exact r.unique (r.mem_dequeue.mp hb).2 (r.mem_dequeue.mp hb').2
  · intro g b hb
    exact r.inUse (r.mem_dequeue.mp hb).2

theorem listMove_rings (r : Rings s V L) {g : η} (ha : a ∈ L g) (hV : h ∈ V) :
    Rings (listMove s (.inr a) (.inl h)) V (transfer L a h) := by
  have hdel := listDel_rings r ha
  exact listAdd_rings hdel hV fun g hg => (r.mem_dequeue.mp hg).1 rfl

theorem initListHead_rings (r : Rings s V L) (hV : h ∉ V) :
    Rings (initListHead s (.inl h)) (insert h V) L := by
  have hempty : L h = [] := List.eq_nil_iff_forall_not_mem.mpr fun a ha => hV (r.inUse ha)
  refine ⟨fun g hg => ?_, r.unique, fun ha => Or.inr (r.inUse ha)⟩
  by_cases hgh : g = h
  · subst hgh
    rw [hempty]
    exact initListHead_isRing ..
  · have hgV : g ∈ V := hg.resolve_left hgh
    have hx : ∀ x ∈ Sum.inl g :: (L g).map Sum.inr, x ≠ Sum.inl h := by
      simp [hgh]
    exact r.ring_frame hgV (fun x hx' => Function.update_of_ne (hx x hx') ..)
      fun x hx' => Function.update_of_ne (hx x hx') ..

theorem initListHeads_rings {hs : List η} {V' : Set η} (r : Rings s V L) (hnd : hs.Nodup)
    (hV : ∀ h ∈ hs, h ∉ V) (hV' : ∀ h, h ∈ V' ↔ h ∈ V ∨ h ∈ hs) :
    Rings (hs.foldl (fun s h => initListHead s (Sum.inl h)) s) V' L := by
  induction hs generalizing s V with
  | nil =>
      have heq : V' = V := Set.ext fun h => by simp [hV' h]
      exact heq ▸ r
  | cons h hs ih =>
      obtain ⟨hh, hnd⟩ := List.nodup_cons.mp hnd
      refine ih (initListHead_rings r (hV h (by simp))) hnd (fun g hg => ?_) fun g => ?_
      · rw [Set.mem_insert_iff, not_or]
        exact ⟨fun hgh => hh (hgh ▸ hg), hV g (by simp [hg])⟩
      · rw [hV' g, Set.mem_insert_iff, List.mem_cons, or_left_comm, or_assoc]

theorem listDel_eq_self {e : η ⊕ α} (hnext : s.next (s.prev e) = s.next e)
    (hprev : s.prev (s.next e) = s.prev e) : listDel s e = s := by
  have hp : Function.update s.prev (s.next e) (s.prev e) = s.prev := by
    rw [← hprev, Function.update_eq_self]
  change Cells.mk (Function.update s.next (Function.update s.prev (s.next e) (s.prev e) e)
    (s.next e)) (Function.update s.prev (s.next e) (s.prev e)) = s
  rw [hp, ← hnext, Function.update_eq_self]

/-- The links that a node has kept from an earlier place fit the list: they do not reach into it, or
name two neighbours, or the last node with some other one. -/
def LinksFit {ι : Type v} (s : Cells ι) (head : ι) (l : List ι) (e : ι) : Prop :=
  (s.next e ∈ head :: l → s.prev e = s.prev (s.next e)) ∧
    (s.prev e ∈ head :: l → s.prev e = s.prev head ∨ s.next e = s.next (s.prev e))

instance decidableLinksFit {ι : Type v} [DecidableEq ι] (s : Cells ι) (head : ι) (l : List ι)
    (e : ι) : Decidable (LinksFit s head l e) := inferInstanceAs (Decidable (_ ∧ _))

theorem listMove_isRing_iff {ι : Type v} [DecidableEq ι] {s : Cells ι} {head e : ι} {l : List ι}
    (h : IsRing s head l) (he : e ∉ head :: l) :
    IsRing (listMove s e head) head (l ++ [e]) ↔ LinksFit s head l e := by
  have hN : Family (Cells ι) Set.univ := family_cells _
  have hm := fun x : ι => Set.mem_univ x
  have hne : head ≠ e := fun hhead => he (hhead ▸ List.mem_cons_self)
  have hin : ∀ x ∈ head :: l, x ≠ e := fun x hx hxe => he (hxe ▸ hx)
  have hdelNext : ∀ x, next (listDel s e) x = if x = s.prev e then s.next e else s.next x :=
    fun x => next_listDel hN (hm x) (hm e) (hm _) (hm _)
  have hdelPrev : ∀ x, prev (listDel s e) x = if x = s.next e then s.prev e else s.prev x :=
    fun x => prev_listDel hN (hm x) (hm e) (hm _) (hm _)
  have hnext : ∀ x, next (listMove s e head) x = if x = prev (listDel s e) head then e
      else if x = e then head else next (listDel s e) x :=
    fun x => next_listAdd hN (hm x) (hm e) (hm head) (hm _) hne
  have hprev : ∀ x, prev (listMove s e head) x = if x = head then e
      else if x = e then prev (listDel s e) head else prev (listDel s e) x :=
    fun x => prev_listAdd hN (hm x) (hm e) (hm head) (hm _) hne
  -- `list_del` leaves the last node in front of the head, unless it makes another one so
  have hlast : (s.next e ∈ head :: l → s.prev e = s.prev (s.next e)) →
      prev (listDel s e) head = s.prev head := by
    intro hfront
    rw [hdelPrev]
    split
    · next hhead => rw [hfront (hhead ▸ List.mem_cons_self), ← hhead]
    · rfl
  constructor
  · intro hmoved
    obtain ⟨hprevs, hnew, hnexts⟩ := h.segment.init_links hmoved.segment
    have hfront : s.next e ∈ head :: l → s.prev e = s.prev (s.next e) := by
      intro hmem
      obtain hhead | hl := List.mem_cons.mp hmem
      · rw [hprev, if_neg hne.symm, if_pos rfl, hdelPrev, if_pos hhead.symm] at hnew
        rw [hhead]
        exact hnew
      · have hkept := hprevs _ hl
        have hnhead : s.next e ≠ head := fun hhead => h.head_notMem (hhead ▸ hl)
        rw [hprev, if_neg hnhead, if_neg (hin _ hmem), hdelPrev, if_pos rfl] at hkept
        exact hkept
    refine ⟨hfront, fun hmem => ?_⟩
    have hback : prev (listDel s e) head = s.prev head := hlast hfront
    obtain hend | hkept := hnexts _ hmem
    · exact Or.inl hend
    · rw [hnext, hback] at hkept
      split at hkept
      · next hend => exact Or.inl hend
      · rw [if_neg (hin _ hmem), hdelNext, if_pos rfl] at hkept
        exact Or.inr hkept
  · rintro ⟨hfront, hback⟩
    have hend : prev (listDel s e) head = s.prev head := hlast hfront
    have hmem : s.prev head ∈ head :: l := h.segment.prev_mem
    refine ⟨h.segment.snoc h.nodup ?_ ?_ ?_ ?_ ?_ ?_, ?_⟩
    · intro x hx (hxlast : x ≠ s.prev head)
      rw [hnext, hend, if_neg hxlast, if_neg (hin x hx), hdelNext]
      split
      · next hxe =>
          subst hxe
          exact (hback hx).resolve_left hxlast
      · rfl
    · intro x hx
      have hxhead : x ≠ head := fun hxh => h.head_notMem (hxh ▸ hx)
      rw [hprev, if_neg hxhead, if_neg (hin x (List.mem_cons_of_mem _ hx)), hdelPrev]
      split
      · next hxe =>
          subst hxe
          exact hfront (List.mem_cons_of_mem _ hx)
      · rfl
    · rw [hnext, hend]
      exact if_pos rfl
    · rw [hprev, if_neg hne.symm, if_pos rfl]
      exact hend
    · rw [hnext, hend, if_neg (hin _ hmem).symm, if_pos rfl]
    · rw [hprev, if_pos rfl]
    · rw [← List.cons_append, List.pairwise_append]
      refine ⟨h.apart, List.pairwise_singleton .., fun x hx y hy => ?_⟩
      rw [List.mem_singleton.mp hy]
      exact hin x hx

end Families

section Loops
variable [DecidableEq ι] {τ : Type w} {γ : Type x} {links : τ → σ} {a head : ι}
  {body : τ → ι → τ ⊕ γ} {l : List ι}

theorem listForEach_eq (hbody : ∀ t pos t', body t pos = .inl t' → links t' = links t)
    (fuel : Nat) (t : τ) (h : Path (links t) a l head) (hl : head ∉ l)
    (hfuel : l.length < fuel) :
    listForEach links head body fuel t (next (links t) a) = some (forEach body t l) := by
  induction l generalizing a t fuel with
  | nil =>
      cases fuel with
      | zero => omega
      | succ n =>
          have hnext : next (links t) a = head := h
          simp [listForEach, forEach, hnext]
  | cons x l ih =>
      cases fuel with
      | zero => omega
      | succ n =>
          have hx : x ≠ head := fun hx => hl (by simp [hx])
          rw [h.1, listForEach, if_neg hx, forEach]
          cases hb : body t x with
          | inl t' =>
              have hlinks := hbody t x t' hb
              have hrest : Path (links t') x l head := hlinks ▸ h.2
              exact ih n t' hrest (List.not_mem_of_not_mem_cons hl) (by simpa using hfuel)
          | inr r => rfl

theorem listForEach_mono {n m : Nat} {t : τ} {pos : ι} {r : τ ⊕ γ} (hnm : n ≤ m)
    (h : listForEach links head body n t pos = some r) :
    listForEach links head body m t pos = some r := by
  induction n generalizing m t pos with
  | zero => cases h
  | succ n ih =>
      cases m with
      | zero => omega
      | succ m =>
          rw [listForEach] at h ⊢
          split
          · next hpos => rwa [if_pos hpos] at h
          · next hpos =>
              rw [if_neg hpos] at h
              cases hb : body t pos with
              | inl t' =>
                  rw [hb] at h
                  exact ih (by omega) h
              | inr r' => rwa [hb] at h

theorem listForEach_eq_none {C : Set ι} (hbody : ∀ t pos, ∃ t', body t pos = .inl t')
    (hhead : head ∉ C) (hclosed : ∀ t, ∀ x ∈ C, next (links t) x ∈ C) (fuel : Nat) (t : τ)
    {pos : ι} (hpos : pos ∈ C) : listForEach links head body fuel t pos = none := by
  induction fuel generalizing t pos with
  | zero => rfl
  | succ n ih =>
      obtain ⟨t', ht'⟩ := hbody t pos
      rw [listForEach, if_neg (fun h : pos = head => hhead (h ▸ hpos)), ht']
      exact ih t' (hclosed t' pos hpos)

/-- The rule for `list_for_each_safe`: `Inv` speaks of the state and of the nodes that are
still to come, and the body may do anything to the node it is at. -/
theorem listForEachSafe_rule {safeBody : τ → ι → Option τ} (Inv : τ → List ι → Prop)
    (hnext : ∀ t x l, Inv t (x :: l) → x ≠ head ∧ next (links t) x = l.headD head)
    (hbody : ∀ t x l, Inv t (x :: l) → ∃ t', safeBody t x = some t' ∧ Inv t' l)
    {fuel : Nat} {t : τ} (hfuel : l.length < fuel) (hinv : Inv t l) :
    ∃ t', listForEachSafe links head safeBody fuel t (l.headD head)
      (next (links t) (l.headD head)) = some t' ∧ Inv t' [] := by
  induction l generalizing t fuel with
  | nil =>
      cases fuel with
      | zero => omega
      | succ n => exact ⟨t, by simp [listForEachSafe], hinv⟩
  | cons x l ih =>
      cases fuel with
      | zero => omega
      | succ n =>
          obtain ⟨hx, hxl⟩ := hnext t x l hinv
          obtain ⟨u, hu, hinvu⟩ := hbody t x l hinv
          obtain ⟨t', ht', hdone⟩ := ih (by simpa using hfuel) hinvu
          refine ⟨t', ?_, hdone⟩
          simp only [List.headD_cons, listForEachSafe, if_neg hx, hu, Option.bind_some, hxl]
          exact ht'

theorem listForEachSafe_induct {safeBody : τ → ι → Option τ} {P : τ → Prop} {fuel : Nat} {t t' : τ}
    {pos nxt : ι} (ht : P t) (hbody : ∀ t pos t', P t → safeBody t pos = some t' → P t')
    (hloop : listForEachSafe links head safeBody fuel t pos nxt = some t') : P t' := by
  induction fuel generalizing t pos nxt with
  | zero => cases hloop
  | succ n ih =>
      rw [listForEachSafe] at hloop
      split at hloop
      · obtain rfl := Option.some.inj hloop
        exact ht
      · obtain ⟨t₁, ht₁, hrest⟩ := Option.bind_eq_some_iff.mp hloop
        exact ih (hbody t pos t₁ ht ht₁) hrest

theorem listForEachSafe_mono {safeBody safeBody' : τ → ι → Option τ} {fuel : Nat} {t t' : τ}
    {pos nxt : ι} (hbody : ∀ t pos t', safeBody t pos = some t' → safeBody' t pos = some t')
    (h : listForEachSafe links head safeBody fuel t pos nxt = some t') :
    listForEachSafe links head safeBody' fuel t pos nxt = some t' := by
  induction fuel generalizing t pos nxt with
  | zero => cases h
  | succ n ih =>
      rw [listForEachSafe] at h ⊢
      split
      · next hpos => rwa [if_pos hpos] at h
      · next hpos =>
          rw [if_neg hpos] at h
          obtain ⟨t₁, ht₁, hrest⟩ := Option.bind_eq_some_iff.mp h
          rw [hbody t pos t₁ ht₁, Option.bind_some]
          exact ih hrest

theorem listForEachSafe_map {ρ : Type w} {links' : ρ → σ} {safeBody : τ → ι → Option τ}
    {safeBody' : ρ → ι → Option ρ} (f : τ → ρ) (hlinks : ∀ t, links' (f t) = links t)
    (hbody : ∀ t pos, (safeBody t pos).map f = safeBody' (f t) pos) (fuel : Nat) (t : τ)
    (pos nxt : ι) : (listForEachSafe links head safeBody fuel t pos nxt).map f =
      listForEachSafe links' head safeBody' fuel (f t) pos nxt := by
  induction fuel generalizing t pos nxt with
  | zero => rfl
  | succ n ih =>
      rw [listForEachSafe, listForEachSafe, ← hbody]
      split
      · rfl
      · cases safeBody t pos with
        | none => rfl
        | some t' =>
            simp only [Option.bind_some, Option.map_some, hlinks]
            exact ih t' _ _

end Loops

end Tenok
