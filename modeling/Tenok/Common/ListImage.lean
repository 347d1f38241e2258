import Tenok.Common.List
import Tenok.Lib.LinkImage

/-!
The operations on lists, for lists that lie in another store.
-/
namespace Tenok
open Ring
universe u v w y
variable {σ : Type u} {ι : Type v} {κ : Type w} {γ : Type y} [LinkStore σ ι] [DecidableEq κ] {s : σ}
  {t : Cells κ} {f : κ → ι} {M N : Set κ} {keep : σ → γ} {e new head : κ}
  (hM : ∀ x ∈ M, ∀ y ∈ M, x ≠ y → Apart σ (f x) (f y)) (hN : N ⊆ M) (hkeep : Beside keep f M)
include hM hN hkeep

theorem initListHead_mirrors (h : Mirrors s t f N) (hhead : head ∈ M) :
    Mirrors (initListHead s (f head)) (initListHead t head) f (insert head N) ∧
      keep (initListHead s (f head)) = keep s := by
  have hprev := h.setPrev hM hN (v := head) hhead id
  have hnext := hprev.setNext hM hN (v := head) hhead id
  have hself : (initListHead t head).next head = head ∧ (initListHead t head).prev head = head :=
    ⟨Function.update_self .., Function.update_self ..⟩
  refine ⟨hnext.insert ?_ ?_ ?_ ?_, ?_⟩
  · exact hself.1.symm ▸ Set.mem_insert ..
  · exact hself.2.symm ▸ Set.mem_insert ..
  · exact (LinkStore.next_setNext_self ..).trans (congrArg f hself.1.symm)
  · rw [LinkStore.prev_setNext_self, LinkStore.prev_setPrev_self]
    exact congrArg f hself.2.symm
  · exact (hkeep.setNext _ head hhead _).trans (hkeep.setPrev _ head hhead _)

theorem listDel_mirrors (h : Mirrors s t f N) (he : e ∈ N) :
    Mirrors (listDel s (f e)) (listDel t e) f N ∧ keep (listDel s (f e)) = keep s := by
  have hback := h.setPrev hM hN (hN (h.next_mem e he)) fun _ => h.prev_mem e he
  rw [← h.next_eq e he, ← h.prev_eq e he] at hback
  have hfront := hback.setNext hM hN (hN (hback.prev_mem e he)) fun _ => hback.next_mem e he
  rw [← hback.next_eq e he, ← hback.prev_eq e he] at hfront
  refine ⟨hfront, ?_⟩
  rw [listDel, hback.prev_eq e he, hkeep.setNext _ _ (hN (hback.prev_mem e he)), h.next_eq e he,
    hkeep.setPrev _ _ (hN (h.next_mem e he))]

theorem listAdd_mirrors (h : Mirrors s t f N) (hnew : new ∈ M) (hhead : head ∈ N) :
    Mirrors (listAdd s (f new) (f head)) (listAdd t new head) f (insert new N) ∧
      keep (listAdd s (f new) (f head)) = keep s := by
  have hprev := h.setPrev hM hN hnew fun _ => h.prev_mem head hhead
  have hnext := hprev.setNext hM hN (v := head) hnew fun _ => hhead
  have hN' : insert new N ⊆ M := Set.insert_subset hnew hN
  have hlinked : Mirrors (setNext (setPrev s (f new) (f (t.prev head))) (f new) (f head))
      (setNext (setPrev t new (t.prev head)) new head) f (insert new N) := by
    have hself : (setNext (setPrev t new (t.prev head)) new head).next new = head ∧
        (setNext (setPrev t new (t.prev head)) new head).prev new = t.prev head :=
      ⟨Function.update_self .., Function.update_self ..⟩
    refine hnext.insert ?_ ?_ ?_ ?_
    · exact hself.1.symm ▸ Set.mem_insert_of_mem _ hhead
    · exact hself.2.symm ▸ Set.mem_insert_of_mem _ (h.prev_mem head hhead)
    · rw [LinkStore.next_setNext_self, hself.1]
    · rw [LinkStore.prev_setNext_self, LinkStore.prev_setPrev_self, hself.2]
  rw [← h.prev_eq head hhead] at hlinked
  have hmem : head ∈ insert new N := Set.mem_insert_of_mem _ hhead
  have hlast := hlinked.setNext hM hN' (v := new) (hN' (hlinked.prev_mem head hmem)) fun _ =>
    Set.mem_insert ..
  rw [← hlinked.prev_eq head hmem] at hlast
  refine ⟨hlast.setPrev hM hN' (v := new) (hN' hmem) fun _ => Set.mem_insert .., ?_⟩
  rw [listAdd, hkeep.setPrev _ head (hN hhead), hlinked.prev_eq head hmem,
    hkeep.setNext _ _ (hN' (hlinked.prev_mem head hmem)), hkeep.setNext _ new hnew,
    hkeep.setPrev _ new hnew]

theorem listMove_mirrors (h : Mirrors s t f N) (he : e ∈ N) (hhead : head ∈ N) :
    Mirrors (listMove s (f e) (f head)) (listMove t e head) f N ∧
      keep (listMove s (f e) (f head)) = keep s := by
  obtain ⟨hdel, hdelKeep⟩ := listDel_mirrors hM hN hkeep h he
  obtain ⟨hadd, haddKeep⟩ := listAdd_mirrors hM hN hkeep hdel (hN he) hhead
  rw [Set.insert_eq_of_mem he] at hadd
  exact ⟨hadd, haddKeep.trans hdelKeep⟩

end Tenok
