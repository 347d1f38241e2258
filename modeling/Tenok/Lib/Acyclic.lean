import Mathlib.Logic.Relation

/-!
Relations without cycles, as waits-for relations are to be, and what one more pair does
to them.
-/
namespace Relation
universe u
variable {α : Type u} {r r' : α → α → Prop} {a b : α}

/-- Nothing leads from an element back to it. -/
def Acyclic (r : α → α → Prop) : Prop := ∀ a, ¬ TransGen r a a

theorem Acyclic.mono (h : Acyclic r) (hle : ∀ x y, r' x y → r x y) : Acyclic r' :=
  fun a hcycle => h a (TransGen.mono hle a a hcycle)

theorem transGen_insert (hr' : ∀ x y, r' x y → r x y ∨ (x = a ∧ y = b)) {x y : α}
    (hpath : TransGen r' x y) :
    TransGen r x y ∨ (ReflTransGen r x a ∧ ReflTransGen r b y) := by
  induction hpath with
  | single hxy =>
      obtain hold | ⟨rfl, rfl⟩ := hr' _ _ hxy
      · exact Or.inl (.single hold)
      · exact Or.inr ⟨.refl, .refl⟩
  | tail _ hyz ih =>
      obtain hold | ⟨rfl, rfl⟩ := hr' _ _ hyz
      · exact ih.imp (fun h => h.tail hold) fun h => ⟨h.1, h.2.tail hold⟩
      · exact ih.elim (fun h => Or.inr ⟨h.to_reflTransGen, .refl⟩) fun h => Or.inr ⟨h.1, .refl⟩

theorem acyclic_insert_iff (hr' : ∀ x y, r' x y ↔ r x y ∨ (x = a ∧ y = b)) (h : Acyclic r) :
    Acyclic r' ↔ ¬ ReflTransGen r b a := by
  constructor
  · intro hacyclic hback
    have hback' : ReflTransGen r' b a :=
      ReflTransGen.mono (fun x y hxy => (hr' x y).mpr (Or.inl hxy)) b a hback
    exact hacyclic a (TransGen.head' ((hr' a b).mpr (Or.inr ⟨rfl, rfl⟩)) hback')
  · intro hback x hcycle
    obtain hold | ⟨hxa, hbx⟩ := transGen_insert (fun x y => (hr' x y).mp) hcycle
    · exact h x hold
    · exact hback (hbx.trans hxa)

end Relation
