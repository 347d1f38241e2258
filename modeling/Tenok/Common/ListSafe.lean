import Tenok.Common.List

/-!
`list_for_each_safe` whose body takes its node out of the list or moves it to another one.
-/
namespace Tenok
open Ring Queues
universe u v w
variable {η : Type u} {α : Type v} {υ : Type w} [DecidableEq η] [DecidableEq α]

/-- What the body does with the node that it is at. -/
inductive Unlink (η : Type u)
  | remove
  | move (newHead : η)

namespace Unlink

def links (u : Unlink η) (s : Cells (η ⊕ α)) (a : α) : Cells (η ⊕ α) :=
  match u with
  | remove => listDel s (.inr a)
  | move newHead => listMove s (.inr a) (.inl newHead)

def lists (u : Unlink η) (L : η → List α) (a : α) : η → List α :=
  match u with
  | remove => dequeue L a
  | move newHead => transfer L a newHead

end Unlink

/-- The links, the nodes visited so far with what was done to them, and the data of the loop. -/
structure Visit (η : Type u) (α : Type v) (υ : Type w) where
  links : Cells (η ⊕ α)
  done : List (α × Unlink η)
  data : υ

namespace Visit

/-- A body that decides from the state of the loop what it does with a node. -/
def body (choose : Visit η α υ → α → Unlink η × υ) (t : Visit η α υ) : η ⊕ α → Option (Visit η α υ)
  | .inl _ => none
  | .inr a =>
      some ⟨(choose t a).1.links t.links a, t.done ++ [(a, (choose t a).1)], (choose t a).2⟩

def lists (L : η → List α) (done : List (α × Unlink η)) : η → List α :=
  done.foldl (fun L d => d.2.lists L d.1) L

end Visit

section Steps
variable {s : Cells (η ⊕ α)} {V : Set η} {L : η → List α} {a : α} {h : η} {l : List α}

/-- The node leaves its list for one in use. -/
def Unlink.Leaves (V : Set η) (h : η) : Unlink η → Prop
  | remove => True
  | move newHead => newHead ∈ V ∧ newHead ≠ h

theorem Unlink.rings {u : Unlink η} (r : Rings s V L) (ha : a ∈ L h) (hu : u.Leaves V h) :
    Rings (u.links s a) V (u.lists L a) := by
  cases u with
  | remove => exact listDel_rings r ha
  | move newHead => exact listMove_rings r ha hu.1

theorem Unlink.lists_head {u : Unlink η} (hL : L h = a :: l) (hu : u.Leaves V h) :
    u.lists L a h = l := by
  have hdequeue : dequeue L a h = l := by rw [dequeue, hL, List.erase_cons_head]
  cases u with
  | remove => exact hdequeue
  | move newHead => exact (enqueue_of_ne (Ne.symm hu.2)).trans hdequeue

namespace Visit

/-- The nodes that are still to come are those that are left in the list. -/
structure Inv (V : Set η) (L : η → List α) (h : η) (t : Visit η α υ) (nodes : List (η ⊕ α)) :
    Prop where
  left : nodes = (lists L t.done h).map Sum.inr
  done : t.done.map Prod.fst ++ lists L t.done h = L h
  rings : Rings t.links V (lists L t.done)

variable {choose : Visit η α υ → α → Unlink η × υ} {t : Visit η α υ} {x : η ⊕ α}
  {nodes : List (η ⊕ α)}

theorem Inv.next (hinv : Inv V L h t (x :: nodes)) (hV : h ∈ V) :
    x ≠ Sum.inl h ∧ Ring.next t.links x = nodes.headD (Sum.inl h) := by
  have hring := hinv.rings.ring h hV
  rw [← hinv.left] at hring
  have hring' : IsRing t.links (Sum.inl h) ([x] ++ nodes) := hring
  exact ⟨fun hx => hring.head_notMem (hx ▸ List.mem_cons_self), hring'.cut.2⟩

theorem Inv.body (hinv : Inv V L h t (x :: nodes)) (hchoose : ∀ t a, (choose t a).1.Leaves V h) :
    ∃ t', Visit.body choose t x = some t' ∧ Inv V L h t' nodes := by
  obtain ⟨hleft, hdone, hrings⟩ := hinv
  cases hl : lists L t.done h with
  | nil =>
      rw [hl] at hleft
      cases hleft
  | cons a l =>
      rw [hl] at hleft hdone
      cases hleft
      have ha : a ∈ lists L t.done h := by
        rw [hl]
        exact List.mem_cons_self
      have hu := hchoose t a
      have hlists : lists L (t.done ++ [(a, (choose t a).1)]) =
          (choose t a).1.lists (lists L t.done) a := List.foldl_append
      have hrest := Unlink.lists_head hl hu
      refine ⟨_, rfl, ?_, ?_, ?_⟩
      · rw [hlists, hrest]
      · rw [hlists, hrest, List.map_append, List.append_assoc]
        exact hdone
      · rw [hlists]
        exact Unlink.rings hrings ha hu

end Visit

/-- The loop visits the nodes that were in the list at its start, in their order, and the list is
empty afterwards. -/
theorem listForEachSafe_unlinks {choose : Visit η α υ → α → Unlink η × υ} (r : Rings s V L)
    (hV : h ∈ V) (hchoose : ∀ t a, (choose t a).1.Leaves V h) (d : υ) {fuel : Nat}
    (hfuel : (L h).length < fuel) :
    ∃ t', listForEachSafe Visit.links (Sum.inl h) (Visit.body choose) fuel ⟨s, [], d⟩
        (next s (Sum.inl h)) (next s (next s (Sum.inl h))) = some t' ∧
      t'.done.map Prod.fst = L h ∧ Rings t'.links V (Visit.lists L t'.done) ∧
      Visit.lists L t'.done h = [] := by
  have hhead : next s (Sum.inl h) = ((L h).map Sum.inr).headD (Sum.inl h) := (r.ring h hV).next_head
  have hnodes : ((L h).map (Sum.inr : α → η ⊕ α)).length < fuel := by rwa [List.length_map]
  have hinv : Visit.Inv V L h ⟨s, [], d⟩ ((L h).map Sum.inr) := ⟨rfl, rfl, r⟩
  obtain ⟨t', hloop, hend⟩ := listForEachSafe_rule (Visit.Inv V L h) (fun _ _ _ h => h.next hV)
    (fun _ _ _ h => h.body hchoose) hnodes hinv
  have hempty : Visit.lists L t'.done h = [] := List.map_eq_nil_iff.mp hend.left.symm
  have hdone := hend.done
  rw [hempty, List.append_nil] at hdone
  rw [hhead]
  exact ⟨t', hloop, hdone, hend.rings, hempty⟩

/-- The operations on a heap of lists. -/
theorem list_primitives (r : Rings s V L) (hV : h ∈ V) :
    (∀ a, (∀ g, a ∉ L g) →
      Rings (listAdd s (.inr a) (.inl h)) V (Function.update L h (L h ++ [a]))) ∧
    (∀ a g, a ∈ L g → Rings (listDel s (.inr a)) V fun g' => (L g').erase a) ∧
    (∀ a g, a ∈ L g → Rings (listMove s (.inr a) (.inl h)) V
      (Function.update (fun g' => (L g').erase a) h ((L h).erase a ++ [a]))) ∧
    ∀ (υ : Type w) (choose : Visit η α υ → α → Unlink η × υ) (d : υ),
      (∀ t a, (choose t a).1.Leaves V h) → ∀ fuel, (L h).length < fuel →
      (L h).Nodup ∧ ∃ t', listForEachSafe Visit.links (Sum.inl h) (Visit.body choose) fuel ⟨s, [], d⟩
          (next s (Sum.inl h)) (next s (next s (Sum.inl h))) = some t' ∧
        t'.done.map Prod.fst = L h ∧ Rings t'.links V (Visit.lists L t'.done) ∧
        Visit.lists L t'.done h = [] :=
  ⟨fun _ ha => listAdd_rings r hV ha, fun _ _ ha => listDel_rings r ha,
    fun _ _ ha => listMove_rings r ha hV,
    fun _ _ d hchoose _ hfuel => ⟨r.nodup h, listForEachSafe_unlinks r hV hchoose d hfuel⟩⟩

/-- Two heads, and the nodes 1 and 2 in the list of the first one. -/
def twoLists : Cells (Bool ⊕ Nat) :=
  let s := initListHead (initListHead ⟨id, id⟩ (.inl true)) (.inl false)
  listAdd (listAdd s (.inr 1) (.inl true)) (.inr 2) (.inl true)

theorem twoLists_rings : Rings twoLists (insert false (insert true ∅))
    (enqueue (enqueue (fun _ => []) 1 true) 2 true) := by
  have hnone : Rings (⟨id, id⟩ : Cells (Bool ⊕ Nat)) ∅ fun _ => [] :=
    ⟨fun _ hV => absurd hV (Set.notMem_empty _), fun ha => absurd ha List.not_mem_nil,
      fun ha => absurd ha List.not_mem_nil⟩
  have htrue := initListHead_rings hnone (Set.notMem_empty true)
  have hfalse : false ∉ insert true (∅ : Set Bool) := by simp
  have hheads := initListHead_rings htrue hfalse
  have hV : true ∈ insert false (insert true (∅ : Set Bool)) := by simp
  have hfirst := listAdd_rings (a := 1) hheads hV fun _ => List.not_mem_nil
  refine listAdd_rings hfirst hV fun g => ?_
  rw [mem_enqueue]
  decide +revert

/-- Node 1 goes to the second list, and node 2 is taken out. -/
theorem list_primitives_twoLists :
    ∃ t', listForEachSafe Visit.links (Sum.inl true)
        (Visit.body fun t a => (if a = 1 then .move false else .remove, t.data)) 3 ⟨twoLists, [], ()⟩
        (next twoLists (Sum.inl true)) (next twoLists (next twoLists (Sum.inl true))) = some t' ∧
      t'.done.map Prod.fst = [1, 2] := by
  have hV : true ∈ insert false (insert true (∅ : Set Bool)) := by simp
  have hchoose : ∀ (t : Visit Bool Nat Unit) (a : Nat),
      Unlink.Leaves (insert false (insert true ∅)) true
        (if a = 1 then Unlink.move false else Unlink.remove) := by
    intro t a
    split
    · exact ⟨Set.mem_insert _ _, Bool.false_ne_true⟩
    · trivial
  obtain ⟨-, t', hloop, hdone, -⟩ :=
    (list_primitives twoLists_rings hV).2.2.2 Unit
      (fun t a => (if a = 1 then .move false else .remove, t.data)) () hchoose 3 (by decide)
  exact ⟨t', hloop, hdone⟩

end Steps

end Tenok
