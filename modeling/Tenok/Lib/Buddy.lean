import Mathlib.Algebra.BigOperators.Group.Finset.Basic
import Mathlib.Algebra.BigOperators.Intervals
import Mathlib.Algebra.BigOperators.Ring.Finset
import Mathlib.Algebra.Order.BigOperators.Group.Finset
import Mathlib.Tactic.Ring

/-!
Binary buddy systems over the unit cells `0, …, top * 2 ^ maxOrder - 1`. A block
of order `o` is a naturally aligned run of `2 ^ o` cells. The blocks of a system
are those marked free and those held by someone; `Tiles` says that together they
cover every cell exactly once. Taking, giving back, splitting and merging a held
block keep this, and a system that merges eagerly (`Coalesced`) has a free block
of every order for which some aligned block meets no held one.
-/
namespace Buddy

structure Block where
  order : Nat
  idx : Nat
deriving DecidableEq, Repr

def Block.Contains (b : Block) (x : Nat) : Prop := x / 2 ^ b.order = b.idx

instance (b : Block) (x : Nat) : Decidable (b.Contains x) :=
  inferInstanceAs (Decidable (_ = _))

/-- Which blocks are free, by order and index. -/
abbrev FreeMap := Nat → Nat → Bool

def FreeMap.set (free : FreeMap) (b : Block) (value : Bool) : FreeMap := fun o i =>
  if o = b.order ∧ i = b.idx then value else free o i

section
variable (maxOrder top : Nat)

def Block.InRange (b : Block) : Prop :=
  b.order ≤ maxOrder ∧ b.idx < top * 2 ^ (maxOrder - b.order)

/-- How many free blocks contain the cell: one candidate for each order. -/
def freeCover (free : FreeMap) (x : Nat) : Nat :=
  ∑ o ∈ Finset.range (maxOrder + 1), if free o (x / 2 ^ o) then 1 else 0

def heldCover (held : List Block) (x : Nat) : Nat := held.countP fun b => decide (b.Contains x)

structure Tiles (free : FreeMap) (held : List Block) : Prop where
  free_inRange : ∀ o i, free o i = true → (Block.mk o i).InRange maxOrder top
  held_inRange : ∀ b ∈ held, b.InRange maxOrder top
  once : ∀ x < top * 2 ^ maxOrder, freeCover maxOrder free x + heldCover held x = 1

/-- No two buddies below the largest order are both free. -/
def Coalesced (free : FreeMap) : Prop :=
  ∀ o < maxOrder, ∀ i, free o (2 * i) = true → free o (2 * i + 1) = false

end

section Cover
variable {maxOrder top : Nat} {free : FreeMap} {held : List Block}

theorem heldCover_cons (b : Block) (held : List Block) (x : Nat) :
    heldCover (b :: held) x = heldCover held x + if b.Contains x then 1 else 0 := by
  simp [heldCover, List.countP_cons]

theorem freeCover_set (free : FreeMap) (b : Block) (value : Bool) (x : Nat) (hb : b.order ≤ maxOrder) :
    freeCover maxOrder (free.set b value) x +
        (if b.Contains x ∧ free b.order b.idx = true then 1 else 0) =
      freeCover maxOrder free x + if b.Contains x ∧ value = true then 1 else 0 := by
  have hmem : b.order ∈ Finset.range (maxOrder + 1) := Finset.mem_range.mpr (by omega)
  unfold freeCover
  rw [← Finset.add_sum_erase _ _ hmem, ← Finset.add_sum_erase _ _ hmem]
  have hrest : ∑ o ∈ (Finset.range (maxOrder + 1)).erase b.order,
        (if free.set b value o (x / 2 ^ o) then 1 else 0) =
      ∑ o ∈ (Finset.range (maxOrder + 1)).erase b.order,
        (if free o (x / 2 ^ o) then 1 else 0) := by
    apply Finset.sum_congr rfl
    intro o ho
    have hne : o ≠ b.order := (Finset.mem_erase.mp ho).1
    simp [FreeMap.set, hne]
  rw [hrest]
  by_cases hc : x / 2 ^ b.order = b.idx
  · simp only [FreeMap.set, Block.Contains, hc, and_self, true_and, if_true]
    omega
  · simp only [FreeMap.set, Block.Contains, hc, and_false, false_and, if_false]

private theorem div_pow_succ (x o : Nat) : x / 2 ^ (o + 1) = x / 2 ^ o / 2 := by
  rw [Nat.pow_succ, Nat.div_div_eq_div_mul]

theorem contains_halves (o i x : Nat) :
    (if (Block.mk (o + 1) i).Contains x then 1 else 0) =
      (if (Block.mk o (2 * i)).Contains x then 1 else 0) +
        if (Block.mk o (2 * i + 1)).Contains x then 1 else 0 := by
  have hwhole : (Block.mk (o + 1) i).Contains x ↔
      (Block.mk o (2 * i)).Contains x ∨ (Block.mk o (2 * i + 1)).Contains x := by
    simp only [Block.Contains, div_pow_succ]
    omega
  have hapart : (Block.mk o (2 * i)).Contains x → ¬ (Block.mk o (2 * i + 1)).Contains x := by
    simp only [Block.Contains]
    omega
  by_cases hl : (Block.mk o (2 * i)).Contains x
  · simp [hwhole, hl, hapart hl]
  · simp [hwhole, hl]

theorem Tiles.free_unique (h : Tiles maxOrder top free held) {x : Nat}
    (hx : x < top * 2 ^ maxOrder) {o o' : Nat} (ho : free o (x / 2 ^ o) = true)
    (ho' : free o' (x / 2 ^ o') = true) : o = o' := by
  by_contra hne
  have hm : o ≤ maxOrder := (h.free_inRange _ _ ho).1
  have hm' : o' ≤ maxOrder := (h.free_inRange _ _ ho').1
  have hsub : ({o, o'} : Finset Nat) ⊆ Finset.range (maxOrder + 1) := by
    intro k hk
    simp only [Finset.mem_insert, Finset.mem_singleton] at hk
    simp only [Finset.mem_range]
    omega
  have hle : ∑ k ∈ ({o, o'} : Finset Nat), (if free k (x / 2 ^ k) then 1 else 0) ≤
      freeCover maxOrder free x := Finset.sum_le_sum_of_subset hsub
  rw [Finset.sum_pair hne, if_pos ho, if_pos ho'] at hle
  have := h.once x hx
  omega

theorem Tiles.free_not_held (h : Tiles maxOrder top free held) {x : Nat}
    (hx : x < top * 2 ^ maxOrder) {o : Nat} (ho : free o (x / 2 ^ o) = true)
    {b : Block} (hb : b ∈ held) : ¬ b.Contains x := by
  intro hc
  have hm : o ∈ Finset.range (maxOrder + 1) :=
    Finset.mem_range.mpr (Nat.lt_succ_of_le (h.free_inRange _ _ ho).1)
  have hle := Finset.single_le_sum
    (f := fun k => if free k (x / 2 ^ k) then 1 else 0) (fun _ _ => Nat.zero_le _) hm
  simp only [ho, if_true] at hle
  have hpos : 0 < heldCover held x := List.countP_pos_iff.mpr ⟨b, hb, by simpa using hc⟩
  have := h.once x hx
  unfold freeCover at this
  omega

theorem Tiles.exists_free (h : Tiles maxOrder top free held) {x : Nat}
    (hx : x < top * 2 ^ maxOrder) (hheld : ∀ b ∈ held, ¬ b.Contains x) :
    ∃ o ≤ maxOrder, free o (x / 2 ^ o) = true := by
  by_contra hnone
  have hzero : freeCover maxOrder free x = 0 := by
    apply Finset.sum_eq_zero
    intro o ho
    have hlt := Finset.mem_range.mp ho
    rw [if_neg]
    intro hf
    exact hnone ⟨o, by omega, hf⟩
  have hh : heldCover held x = 0 := by
    rw [heldCover, List.countP_eq_zero]
    intro b hb
    simpa using hheld b hb
  have := h.once x hx
  omega

private theorem pairwise_of_heldCover_le (bound : Nat)
    (h : ∀ x < bound, heldCover held x ≤ 1) :
    held.Pairwise fun b c => ∀ x < bound, b.Contains x → ¬ c.Contains x := by
  induction held with
  | nil => exact .nil
  | cons b held ih =>
      refine .cons (fun c hc x hx hb hcx => ?_) (ih fun x hx => ?_)
      · have hle := h x hx
        have hpos : 0 < heldCover held x := List.countP_pos_iff.mpr ⟨c, hc, by simpa using hcx⟩
        rw [heldCover_cons, if_pos hb] at hle
        omega
      · have hle := h x hx
        rw [heldCover_cons] at hle
        omega

theorem Tiles.held_pairwise (h : Tiles maxOrder top free held) :
    held.Pairwise fun b c => ∀ x < top * 2 ^ maxOrder, b.Contains x → ¬ c.Contains x := by
  apply pairwise_of_heldCover_le
  intro x hx
  have := h.once x hx
  omega

theorem Block.InRange.start_lt {b : Block} (hb : b.InRange maxOrder top) {k : Nat}
    (hk : k < 2 ^ b.order) : b.idx * 2 ^ b.order + k < top * 2 ^ maxOrder := by
  obtain ⟨ho, hi⟩ := hb
  have hpow : 2 ^ maxOrder = 2 ^ (maxOrder - b.order) * 2 ^ b.order := by
    rw [← Nat.pow_add, Nat.sub_add_cancel ho]
  calc b.idx * 2 ^ b.order + k < (b.idx + 1) * 2 ^ b.order := by
        rw [Nat.add_mul]
        omega
    _ ≤ top * 2 ^ (maxOrder - b.order) * 2 ^ b.order := Nat.mul_le_mul_right _ hi
    _ = top * 2 ^ maxOrder := by rw [hpow, Nat.mul_assoc]

theorem Block.InRange.cell_lt {b : Block} {x : Nat} (hb : b.InRange maxOrder top)
    (hx : b.Contains x) : x < top * 2 ^ maxOrder := by
  have hdecomp : b.idx * 2 ^ b.order + x % 2 ^ b.order = x := by
    rw [← hx, Nat.mul_comm]
    exact Nat.div_add_mod x _
  rw [← hdecomp]
  exact hb.start_lt (Nat.mod_lt _ (Nat.two_pow_pos _))

theorem Block.contains_start (b : Block) {k : Nat} (hk : k < 2 ^ b.order) :
    b.Contains (b.idx * 2 ^ b.order + k) := by
  rw [Block.Contains, Nat.mul_comm, Nat.mul_add_div (Nat.two_pow_pos _), Nat.div_eq_of_lt hk,
    Nat.add_zero]

end Cover

section Initial
variable (maxOrder top : Nat)

def initialFree : FreeMap := fun o i => decide (o = maxOrder ∧ i < top)

theorem tiles_initial : Tiles maxOrder top (initialFree maxOrder top) [] where
  free_inRange := by
    intro o i h
    obtain ⟨rfl, hi⟩ := of_decide_eq_true h
    exact ⟨Nat.le_refl _, by simpa using hi⟩
  held_inRange := by simp
  once := by
    intro x hx
    have hdiv : x / 2 ^ maxOrder < top := (Nat.div_lt_iff_lt_mul (Nat.two_pow_pos _)).mpr hx
    have hterm : ∀ o ∈ Finset.range (maxOrder + 1),
        (if initialFree maxOrder top o (x / 2 ^ o) then 1 else 0) =
          if o = maxOrder then 1 else 0 := by
      intro o _
      by_cases ho : o = maxOrder
      · subst ho
        simp [initialFree, hdiv]
      · simp [initialFree, ho]
    rw [freeCover, Finset.sum_congr rfl hterm, Finset.sum_ite_eq']
    simp [heldCover]

theorem coalesced_initial : Coalesced maxOrder (initialFree maxOrder top) := by
  intro o ho i h
  simp only [initialFree, decide_eq_true_eq] at h
  omega

end Initial

section Operations
variable {maxOrder top : Nat} {free : FreeMap} {held : List Block}

/-- The other half of the parent block. -/
def buddyIdx (i : Nat) : Nat := if i % 2 = 1 then i - 1 else i + 1

theorem Tiles.perm {held' : List Block} (h : Tiles maxOrder top free held)
    (hp : held.Perm held') : Tiles maxOrder top free held' where
  free_inRange := h.free_inRange
  held_inRange := fun b hb => h.held_inRange b (hp.mem_iff.mpr hb)
  once := fun x hx => by
    have hc : heldCover held' x = heldCover held x := (hp.countP_eq _).symm
    rw [hc]
    exact h.once x hx

theorem Tiles.free_eq_false_of_held (h : Tiles maxOrder top free held) {b : Block}
    (hb : b ∈ held) {o : Nat} {k : Nat} (hk : k < 2 ^ b.order) :
    free o ((b.idx * 2 ^ b.order + k) / 2 ^ o) = false := by
  have hx := (h.held_inRange b hb).start_lt hk
  by_contra hf
  exact h.free_not_held hx (by simpa using hf) hb (b.contains_start hk)

theorem Tiles.held_not_free (h : Tiles maxOrder top free held) {b : Block} (hb : b ∈ held) :
    free b.order b.idx = false := by
  have hzero := h.free_eq_false_of_held hb (o := b.order) (Nat.two_pow_pos _)
  rwa [Nat.add_zero, Nat.mul_div_cancel _ (Nat.two_pow_pos _)] at hzero

theorem Tiles.take (h : Tiles maxOrder top free held) (b : Block)
    (hb : free b.order b.idx = true) : Tiles maxOrder top (free.set b false) (b :: held) where
  free_inRange := by
    intro o i hf
    simp only [FreeMap.set] at hf
    split at hf
    · exact Bool.noConfusion hf
    · exact h.free_inRange o i hf
  held_inRange := by
    intro c hc
    rcases List.mem_cons.mp hc with rfl | hc
    · exact h.free_inRange _ _ hb
    · exact h.held_inRange c hc
  once := by
    intro x hx
    have hset := freeCover_set free b false x (h.free_inRange _ _ hb).1
    have honce := h.once x hx
    simp only [hb, and_true, Bool.false_eq_true, and_false, if_false, Nat.add_zero] at hset
    rw [heldCover_cons]
    omega

theorem Tiles.put {b : Block} (h : Tiles maxOrder top free (b :: held)) :
    Tiles maxOrder top (free.set b true) held where
  free_inRange := by
    intro o i hf
    simp only [FreeMap.set] at hf
    split at hf
    · rename_i hoi
      obtain ⟨rfl, rfl⟩ := hoi
      exact h.held_inRange b (List.mem_cons_self ..)
    · exact h.free_inRange o i hf
  held_inRange := fun c hc => h.held_inRange c (List.mem_cons_of_mem _ hc)
  once := by
    intro x hx
    have hb := h.held_not_free (List.mem_cons_self ..)
    have hset := freeCover_set free b true x
      (h.held_inRange b (List.mem_cons_self ..)).1
    have honce := h.once x hx
    rw [heldCover_cons] at honce
    simp only [hb, Bool.false_eq_true, and_false, if_false, and_true, Nat.add_zero] at hset
    omega

private theorem two_mul_lt_of_lt {top k n i : Nat} (hk : k + 1 ≤ n)
    (hi : i < top * 2 ^ (n - (k + 1))) : 2 * i + 1 < top * 2 ^ (n - k) := by
  have hpow : 2 ^ (n - k) = 2 ^ (n - (k + 1)) * 2 := by
    rw [← Nat.pow_succ]
    congr 1
    omega
  rw [hpow, ← Nat.mul_assoc]
  omega

theorem Tiles.split {o i : Nat} (h : Tiles maxOrder top free (⟨o + 1, i⟩ :: held)) :
    Tiles maxOrder top (free.set ⟨o, 2 * i + 1⟩ true) (⟨o, 2 * i⟩ :: held) := by
  obtain ⟨ho, hi⟩ := h.held_inRange _ (List.mem_cons_self ..)
  have hupper : 2 * i + 1 < top * 2 ^ (maxOrder - o) := two_mul_lt_of_lt ho hi
  have hset := fun x => freeCover_set free ⟨o, 2 * i + 1⟩ true x (by simpa using Nat.le_of_succ_le ho)
  have hclear : free o (2 * i + 1) = false := by
    have hf := h.free_eq_false_of_held (List.mem_cons_self ..) (o := o) (k := 2 ^ o)
      (Nat.pow_lt_pow_right (by decide) (Nat.lt_succ_self o))
    have hidx : (i * 2 ^ (o + 1) + 2 ^ o) / 2 ^ o = 2 * i + 1 := by
      rw [show i * 2 ^ (o + 1) + 2 ^ o = (2 * i + 1) * 2 ^ o by ring,
        Nat.mul_div_cancel _ (Nat.two_pow_pos _)]
    rwa [hidx] at hf
  refine ⟨?_, ?_, ?_⟩
  · intro o' i' hf
    simp only [FreeMap.set] at hf
    split at hf
    · rename_i hoi
      obtain ⟨rfl, rfl⟩ := hoi
      exact ⟨Nat.le_of_succ_le ho, hupper⟩
    · exact h.free_inRange o' i' hf
  · intro c hc
    rcases List.mem_cons.mp hc with rfl | hc
    · exact ⟨Nat.le_of_succ_le ho, Nat.lt_of_succ_lt hupper⟩
    · exact h.held_inRange c (List.mem_cons_of_mem _ hc)
  · intro x hx
    have honce := h.once x hx
    have hsetx := hset x
    rw [heldCover_cons, contains_halves] at honce
    rw [heldCover_cons]
    simp only [hclear, Bool.false_eq_true, and_false, if_false, and_true, Nat.add_zero] at hsetx
    omega

theorem buddyIdx_div_two (i : Nat) : buddyIdx i / 2 = i / 2 := by
  unfold buddyIdx
  split <;> omega

private theorem contains_buddies (o i x : Nat) :
    (if (Block.mk (o + 1) (i / 2)).Contains x then 1 else 0) =
      (if (Block.mk o i).Contains x then 1 else 0) +
        if (Block.mk o (buddyIdx i)).Contains x then 1 else 0 := by
  rw [contains_halves]
  rcases Nat.mod_two_eq_zero_or_one i with hi | hi
  · have hb : buddyIdx i = i + 1 := by simp [buddyIdx, hi]
    rw [hb, show 2 * (i / 2) = i by omega]
  · have hb : buddyIdx i = i - 1 := by simp [buddyIdx, hi]
    rw [hb, show 2 * (i / 2) + 1 = i by omega, show 2 * (i / 2) = i - 1 by omega, Nat.add_comm]

theorem Tiles.merge {o i : Nat} (h : Tiles maxOrder top free (⟨o, i⟩ :: held))
    (ho : o < maxOrder) (hb : free o (buddyIdx i) = true) :
    Tiles maxOrder top (free.set ⟨o, buddyIdx i⟩ false) (⟨o + 1, i / 2⟩ :: held) := by
  obtain ⟨_, hi⟩ := h.held_inRange _ (List.mem_cons_self ..)
  have hset := fun x => freeCover_set free ⟨o, buddyIdx i⟩ false x (Nat.le_of_lt ho)
  refine ⟨?_, ?_, ?_⟩
  · intro o' i' hf
    simp only [FreeMap.set] at hf
    split at hf
    · exact Bool.noConfusion hf
    · exact h.free_inRange o' i' hf
  · intro c hc
    rcases List.mem_cons.mp hc with rfl | hc
    · refine ⟨ho, ?_⟩
      have hpow : 2 ^ (maxOrder - o) = 2 ^ (maxOrder - (o + 1)) * 2 := by
        rw [← Nat.pow_succ]
        congr 1
        omega
      simp only at hi ⊢
      rw [hpow, ← Nat.mul_assoc] at hi
      omega
    · exact h.held_inRange c (List.mem_cons_of_mem _ hc)
  · intro x hx
    have honce := h.once x hx
    have hsetx := hset x
    rw [heldCover_cons] at honce
    rw [heldCover_cons, contains_buddies]
    simp only [hb, and_true, Bool.false_eq_true, and_false, if_false, Nat.add_zero] at hsetx
    omega

theorem Coalesced.set_false (h : Coalesced maxOrder free) (b : Block) :
    Coalesced maxOrder (free.set b false) := by
  intro o ho i
  simp only [FreeMap.set]
  split
  · simp
  · intro hf
    split
    · rfl
    · exact h o ho i hf

theorem Coalesced.set_true (h : Coalesced maxOrder free) (b : Block)
    (hb : b.order < maxOrder → free b.order (buddyIdx b.idx) = false) :
    Coalesced maxOrder (free.set b true) := by
  intro o ho i hlow
  simp only [FreeMap.set] at hlow ⊢
  split at hlow
  · rename_i hlo
    obtain ⟨rfl, hidx⟩ := hlo
    have hclear := hb ho
    rw [buddyIdx, ← hidx, if_neg (by omega)] at hclear
    rw [if_neg (by omega), hclear]
  · split
    · rename_i hup
      obtain ⟨rfl, hidx⟩ := hup
      have hclear := hb ho
      rw [buddyIdx, ← hidx, if_pos (by omega), Nat.add_sub_cancel] at hclear
      rw [hclear] at hlow
      exact Bool.noConfusion hlow
    · exact h o ho i hlow

end Operations

section Completeness
variable {maxOrder top : Nat} {free : FreeMap} {held : List Block}

private theorem div_pow_of_le {x y o o' : Nat} (h : x / 2 ^ o = y / 2 ^ o) (ho : o ≤ o') :
    x / 2 ^ o' = y / 2 ^ o' := by
  rw [← Nat.sub_add_cancel ho, Nat.add_comm, Nat.pow_add, ← Nat.div_div_eq_div_mul,
    ← Nat.div_div_eq_div_mul, h]

private theorem buddy_cell (x m : Nat) :
    buddyIdx (x / 2 ^ m) * 2 ^ m / 2 ^ m = buddyIdx (x / 2 ^ m) ∧
      buddyIdx (x / 2 ^ m) * 2 ^ m / 2 ^ (m + 1) = x / 2 ^ (m + 1) := by
  refine ⟨Nat.mul_div_cancel _ (Nat.two_pow_pos _), ?_⟩
  rw [div_pow_succ, div_pow_succ, Nat.mul_div_cancel _ (Nat.two_pow_pos _), buddyIdx_div_two]

private theorem Coalesced.not_both (h : Coalesced maxOrder free) {o i : Nat} (ho : o < maxOrder)
    (hi : free o i = true) (hb : free o (buddyIdx i) = true) : False := by
  unfold buddyIdx at hb
  split at hb
  · have := h o ho (i / 2) (by rwa [show 2 * (i / 2) = i - 1 by omega])
    rw [show 2 * (i / 2) + 1 = i by omega, hi] at this
    exact Bool.noConfusion this
  · have := h o ho (i / 2) (by rwa [show 2 * (i / 2) = i by omega])
    rw [show 2 * (i / 2) + 1 = i + 1 by omega, hb] at this
    exact Bool.noConfusion this

/-- Inside an aligned block that meets no held one every cell lies in a free block
of order at least `m`, for each `m` up to the block's order. -/
private theorem free_order_ge (h : Tiles maxOrder top free held) (hc : Coalesced maxOrder free)
    {b : Block} (hb : b.InRange maxOrder top)
    (hheld : ∀ x, b.Contains x → ∀ c ∈ held, ¬ c.Contains x) (m : Nat) (hm : m ≤ b.order) :
    ∀ x, b.Contains x → ∃ o, m ≤ o ∧ o ≤ maxOrder ∧ free o (x / 2 ^ o) = true := by
  induction m with
  | zero =>
      intro x hx
      obtain ⟨o, ho, hf⟩ := h.exists_free (hb.cell_lt hx) (hheld x hx)
      exact ⟨o, Nat.zero_le _, ho, hf⟩
  | succ m ih =>
      intro x hx
      obtain ⟨o, hmo, ho, hf⟩ := ih (Nat.le_of_succ_le hm) x hx
      rcases Nat.lt_or_eq_of_le hmo with hlt | rfl
      · exact ⟨o, hlt, ho, hf⟩
      -- a free block of order exactly `m`: its buddy lies in `b` too and would be free
      exfalso
      have hmax : m < maxOrder := Nat.lt_of_lt_of_le hm hb.1
      obtain ⟨hidx, hpar⟩ := buddy_cell x m
      have hin : b.Contains (buddyIdx (x / 2 ^ m) * 2 ^ m) := by
        rw [Block.Contains, div_pow_of_le hpar hm]
        exact hx
      obtain ⟨o', hmo', ho', hf'⟩ := ih (Nat.le_of_succ_le hm) _ hin
      rcases Nat.lt_or_eq_of_le hmo' with hlt | rfl
      · rw [div_pow_of_le hpar hlt] at hf'
        have := h.free_unique (hb.cell_lt hx) hf hf'
        omega
      · rw [hidx] at hf'
        exact hc.not_both hmax hf hf'

theorem Tiles.exists_free_around (h : Tiles maxOrder top free held)
    (hc : Coalesced maxOrder free) {b : Block} (hb : b.InRange maxOrder top)
    (hheld : ∀ x, b.Contains x → ∀ c ∈ held, ¬ c.Contains x) :
    ∃ o, b.order ≤ o ∧ o ≤ maxOrder ∧ free o (b.idx * 2 ^ b.order / 2 ^ o) = true := by
  have hstart : b.Contains (b.idx * 2 ^ b.order) := by
    simpa using b.contains_start (Nat.two_pow_pos _)
  exact free_order_ge h hc hb hheld b.order (Nat.le_refl _) _ hstart

private theorem Tiles.free_of_free {free' : FreeMap} {held' : List Block}
    (h : Tiles maxOrder top free held) (hc : Coalesced maxOrder free)
    (h' : Tiles maxOrder top free' held') (hc' : Coalesced maxOrder free')
    (hheld : ∀ b, b ∈ held ↔ b ∈ held') {o i : Nat} (hf : free o i = true) : free' o i = true := by
  have hr := h.free_inRange o i hf
  have hx := hr.start_lt (Nat.two_pow_pos _)
  simp only [Nat.add_zero] at hx
  have hi : i * 2 ^ o / 2 ^ o = i := Nat.mul_div_cancel _ (Nat.two_pow_pos _)
  have hcell : ∀ {free : FreeMap} {o i x : Nat}, free o i = true → (Block.mk o i).Contains x →
      free o (x / 2 ^ o) = true := fun {free o i x} hf hbx => by
    rwa [show x / 2 ^ o = i from hbx]
  obtain ⟨o', ho', hmax', hf'⟩ := h'.exists_free_around hc' hr fun x hbx c hcx =>
    h.free_not_held (hr.cell_lt hbx) (hcell hf hbx) ((hheld c).mpr hcx)
  dsimp only at ho' hf'
  have hr' := h'.free_inRange _ _ hf'
  obtain ⟨o'', ho'', -, hf''⟩ := h.exists_free_around hc hr' fun x hbx c hcx =>
    h'.free_not_held (hr'.cell_lt hbx) (hcell hf' hbx) ((hheld c).mp hcx)
  have hsame : i * 2 ^ o / 2 ^ o' * 2 ^ o' / 2 ^ o'' = i * 2 ^ o / 2 ^ o'' :=
    div_pow_of_le (Nat.mul_div_cancel _ (Nat.two_pow_pos _)) ho''
  dsimp only at hf''
  rw [hsame] at hf''
  have heq := h.free_unique hx (hi.symm ▸ hf) hf''
  obtain rfl : o = o' := by
    dsimp only at ho''
    omega
  rwa [hi] at hf'

theorem Tiles.free_eq {free' : FreeMap} {held' : List Block}
    (h : Tiles maxOrder top free held) (hc : Coalesced maxOrder free)
    (h' : Tiles maxOrder top free' held') (hc' : Coalesced maxOrder free')
    (hheld : ∀ b, b ∈ held ↔ b ∈ held') : free = free' := by
  funext o i
  rw [Bool.eq_iff_iff]
  exact ⟨h.free_of_free hc h' hc' hheld, h'.free_of_free hc' h hc fun b => (hheld b).symm⟩

private theorem sum_div_mul (f : Nat → Nat) (n : Nat) {m : Nat} (hm : 0 < m) :
    ∑ x ∈ Finset.range (n * m), f (x / m) = ∑ i ∈ Finset.range n, f i * m := by
  induction n with
  | zero => simp
  | succ n ih =>
      rw [Nat.add_mul, Nat.one_mul, Finset.sum_range_add, ih, Finset.sum_range_succ]
      congr 1
      rw [Finset.sum_congr rfl (g := fun _ => f n)]
      · simp [Nat.mul_comm]
      · intro x hx
        rw [Nat.mul_comm n m, Nat.mul_add_div hm, Nat.div_eq_of_lt (Finset.mem_range.mp hx),
          Nat.add_zero]

def freeCount (maxOrder top : Nat) (free : FreeMap) (o : Nat) : Nat :=
  ∑ i ∈ Finset.range (top * 2 ^ (maxOrder - o)), if free o i then 1 else 0

private theorem sum_contains {b : Block} (hb : b.InRange maxOrder top) :
    ∑ x ∈ Finset.range (top * 2 ^ maxOrder), (if b.Contains x then 1 else 0) = 2 ^ b.order := by
  obtain ⟨ho, hi⟩ := hb
  have hpow : top * 2 ^ maxOrder = top * 2 ^ (maxOrder - b.order) * 2 ^ b.order := by
    rw [Nat.mul_assoc, ← Nat.pow_add, Nat.sub_add_cancel ho]
  calc ∑ x ∈ Finset.range (top * 2 ^ maxOrder), (if b.Contains x then 1 else 0)
      = ∑ x ∈ Finset.range (top * 2 ^ (maxOrder - b.order) * 2 ^ b.order),
          (fun i => if i = b.idx then 1 else 0) (x / 2 ^ b.order) := by
        rw [hpow]
        exact Finset.sum_congr rfl fun x _ => if_congr Iff.rfl rfl rfl
    _ = (∑ i ∈ Finset.range (top * 2 ^ (maxOrder - b.order)),
          if i = b.idx then 1 else 0) * 2 ^ b.order := by
        rw [Finset.sum_mul]
        exact sum_div_mul (fun i => if i = b.idx then 1 else 0) _ (Nat.two_pow_pos _)
    _ = 2 ^ b.order := by simp [Finset.sum_ite_eq', hi]

private theorem sum_heldCover (hheld : ∀ b ∈ held, b.InRange maxOrder top) :
    ∑ x ∈ Finset.range (top * 2 ^ maxOrder), heldCover held x =
      (held.map fun b => 2 ^ b.order).sum := by
  induction held with
  | nil => simp [heldCover]
  | cons b held ih =>
      simp only [heldCover_cons, Finset.sum_add_distrib, List.map_cons, List.sum_cons]
      rw [ih fun c hc => hheld c (List.mem_cons_of_mem _ hc),
        sum_contains (hheld b (List.mem_cons_self ..)), Nat.add_comm]

theorem Tiles.total (h : Tiles maxOrder top free held) :
    (∑ o ∈ Finset.range (maxOrder + 1), freeCount maxOrder top free o * 2 ^ o) +
      (held.map fun b => 2 ^ b.order).sum = top * 2 ^ maxOrder := by
  have honce : ∑ x ∈ Finset.range (top * 2 ^ maxOrder),
      (freeCover maxOrder free x + heldCover held x) = top * 2 ^ maxOrder := by
    rw [Finset.sum_congr rfl fun x hx => h.once x (Finset.mem_range.mp hx)]
    simp
  rw [Finset.sum_add_distrib, sum_heldCover h.held_inRange] at honce
  rw [← honce]
  congr 1
  unfold freeCover
  rw [Finset.sum_comm]
  apply Finset.sum_congr rfl
  intro o ho
  have hle : o ≤ maxOrder := Nat.le_of_lt_succ (Finset.mem_range.mp ho)
  have hpow : top * 2 ^ maxOrder = top * 2 ^ (maxOrder - o) * 2 ^ o := by
    rw [Nat.mul_assoc, ← Nat.pow_add, Nat.sub_add_cancel hle]
  rw [hpow, sum_div_mul (fun i => if free o i then 1 else 0) _ (Nat.two_pow_pos o), freeCount,
    Finset.sum_mul]

end Completeness

end Buddy
