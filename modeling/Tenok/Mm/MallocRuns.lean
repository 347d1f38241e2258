import Mathlib.Data.Set.BooleanAlgebra
import Mathlib.Order.CompletePartialOrder
import Tenok.Lib.Runs
import Tenok.Mm.MallocRefines

/-!
Whole histories of `__malloc` and `__free`. The state records the pointers that are in
use with the sizes that were asked for. `__free` joins neighbours of the list, while
the list is in the order of allocation and not of addresses.
-/
namespace Tenok
open Ring Extents Runs

inductive HeapOp
  | malloc (size : Word)
  | free (ptr : Word)
deriving DecidableEq, Repr

structure HeapState where
  mem : Memory
  live : List (Word × Word)

def heapBoot (L : HeapLayout) (m : Memory) : HeapState := ⟨heapInit L m, []⟩

def heapStep (L : HeapLayout) (s : HeapState) : HeapOp → Option HeapState
  | .malloc size => do
      let (mem, ptr) ← malloc L s.mem size
      match ptr with
      | none => pure ⟨mem, s.live⟩
      | some ptr => pure ⟨mem, (ptr, size) :: s.live⟩
  | .free ptr => some ⟨free L s.mem ptr, s.live.filter fun l => l.1 ≠ ptr⟩

/-- A pointer is freed only while it is in use. -/
def HeapOp.Valid (s : HeapState) : HeapOp → Prop
  | .malloc _ => True
  | .free ptr => ptr ∈ s.live.map Prod.fst

/-- The size with its header fits in 32 bits, and only neighbours in memory are joined. -/
def HeapOp.Joins (L : HeapLayout) (s : HeapState) : HeapOp → Prop
  | .malloc size => size.toNat + 12 < 2 ^ 32
  | .free ptr => MergesAdjacent L s.mem (ptr - 12#32)

instance HeapOp.decidableValid (s : HeapState) : (op : HeapOp) → Decidable (op.Valid s)
  | .malloc _ => inferInstanceAs (Decidable True)
  | .free ptr => inferInstanceAs (Decidable (ptr ∈ s.live.map Prod.fst))

instance HeapOp.decidableJoins (L : HeapLayout) (s : HeapState) :
    (op : HeapOp) → Decidable (op.Joins L s)
  | .malloc size => inferInstanceAs (Decidable (size.toNat + 12 < 2 ^ 32))
  | .free ptr => inferInstanceAs (Decidable (MergesAdjacent L s.mem (ptr - 12#32)))

def blockSpan (m : Memory) (blk : Word) : Set Nat :=
  Set.Ico blk.toNat (blk.toNat + (mallocGetBlockLength m blk).toNat)

/-- The data area of an allocation: the bytes that were asked for. -/
def dataSpan (l : Word × Word) : Set Nat := Set.Ico l.1.toNat (l.1.toNat + l.2.toNat)

/-- The blocks of `malloc_list` partition the heap and no two data areas meet. -/
structure HeapTiling (L : HeapLayout) (s : HeapState) : Prop where
  blocks : ∃ blks, mallocBlocks L s.mem = some blks ∧ (∀ b ∈ blks, 4 ∣ b.toNat) ∧
    blks.Pairwise (fun a b => Disjoint (blockSpan s.mem a) (blockSpan s.mem b)) ∧
    ∀ x, (∃ b ∈ blks, x ∈ blockSpan s.mem b) ↔ x ∈ Set.Ico L.start.toNat L.stop.toNat
  live_disjoint : s.live.Pairwise fun l l' => Disjoint (dataSpan l) (dataSpan l')

structure HeapInv (L : HeapLayout) (s : HeapState) (blks : List Word) : Prop where
  rep : HeapRep L s.mem blks
  live : ∀ l ∈ s.live, ∃ b ∈ blks, l.1 = dataOf b ∧ mallocBlockIsFree s.mem b = false ∧
    l.2.toNat + 12 < (mallocGetBlockLength s.mem b).toNat + 4
  distinct : (s.live.map Prod.fst).Nodup

section Invariant
variable {L : HeapLayout} {s : HeapState} {blks : List Word} {m : Memory}

private theorem forEach_collectBlock (m : Memory) (acc blks : List Word) :
    forEach collectBlock (m, acc) (blks.map listOf) = .inl (m, acc ++ blks) := by
  induction blks generalizing acc with
  | nil => simp [forEach]
  | cons b blks ih =>
      simp only [List.map_cons, forEach, collectBlock, blockOf_listOf, ih]
      simp

theorem mallocBlocks_eq (h : HeapRep L m blks) : mallocBlocks L m = some blks := by
  have hlinks : ∀ t node t', collectBlock t node = .inl t' → t'.1 = t.1 := by
    intro t node t' ht
    rw [← Sum.inl.inj ht]
  have hloop : listForEach Prod.fst L.mallocList collectBlock memoryFuel (m, [])
      (next m L.mallocList) = some (forEach collectBlock (m, []) (blks.map listOf)) :=
    listForEach_eq hlinks _ (m, []) h.ring.segment.path h.ring.head_notMem (length_lt_fuel h)
  rw [mallocBlocks, hloop, forEach_collectBlock]
  rfl

theorem heapRep_init (L : HeapLayout) (m : Memory) : HeapRep L (heapInit L m) [L.start] := by
  have hroom := L.room
  have hsmall := L.small
  have hstart := L.start_aligned
  have hstop := L.stop_aligned
  have hlen : (L.stop - L.start).toNat = L.stop.toNat - L.start.toNat := by bv_omega
  have hH : Headers L [L.start] :=
    ⟨List.pairwise_singleton .., by simpa using hroom⟩
  generalize hm1 : mallocSetBlockFree (initListHead m L.mallocList) L.start true = m1
  generalize hm2 : mallocSetBlockLength m1 L.start (L.stop - L.start) = m2
  have hring2 : IsRing m2 L.mallocList (([] : List Word).map listOf) := by
    have hring1 : IsRing m1 L.mallocList (([] : List Word).map listOf) :=
      IsRing.write_info (initListHead_isRing m L.mallocList) hH (List.nil_subset _) (by simp)
        fun _ ha => hm1 ▸ mallocSetBlockFree_ne _ ha
    exact IsRing.write_info hring1 hH (List.nil_subset _) (by simp)
      fun _ ha => hm2 ▸ mallocSetBlockLength_ne _ ha
  have hlenStart : mallocGetBlockLength (heapInit L m) L.start = L.stop - L.start := by
    rw [← mallocGetBlockLength_setLength m1 L.start (show (L.stop - L.start).toNat < 2 ^ 30 by omega)]
    simp only [mallocGetBlockLength, heapInit, hm1, hm2, hH.listAdd_info hring2 (List.mem_singleton.mpr rfl)]
  refine ⟨?_, ?_, ?_, ?_⟩
  · have happart := hH.nodes_apart
    simp only [nodes, List.map_cons, List.pairwise_cons] at happart
    simp only [heapInit, hm1, hm2]
    apply listAdd_isRing hring2
    intro x hx
    rw [List.mem_singleton.mp hx]
    exact LinkStore.apart_symm (happart.1 _ (by simp))
  · rw [extents_cons, hlenStart, hlen]
    exact tiles_singleton _ _ (by omega)
  · intro b hb
    rw [List.mem_singleton.mp hb, hlenStart]
    omega
  · intro b hb
    rw [List.mem_singleton.mp hb, hlenStart]
    omega

theorem heapInv_boot (L : HeapLayout) (m : Memory) : HeapInv L (heapBoot L m) [L.start] :=
  ⟨heapRep_init L m, by simp [heapBoot], by simp [heapBoot]⟩

theorem heapStep_spec {op : HeapOp} (h : HeapInv L s blks) (hvalid : op.Valid s)
    (hjoins : op.Joins L s) :
    ∃ s', heapStep L s op = some s' ∧ ∃ blks', HeapInv L s' blks' := by
  cases op with
  | malloc size =>
      rcases malloc_spec h.rep hjoins with hnull | ⟨m', blks', blk, hsome, hrep, hblk, hused, hfit, hkeep⟩
      · exact ⟨s, by simp [heapStep, hnull], blks, h⟩
      · refine ⟨⟨m', (dataOf blk, size) :: s.live⟩, by simp [heapStep, hsome], blks', hrep, ?_, ?_⟩
        · intro l hl
          cases List.mem_cons.mp hl with
          | inl hl =>
              subst hl
              exact ⟨blk, hblk, rfl, hused, hfit⟩
          | inr hl =>
              obtain ⟨b, hb, hptr, hbu, hsize⟩ := h.live l hl
              obtain ⟨hb', _, hsame⟩ := hkeep b hb hbu
              refine ⟨b, hb', hptr, ?_, ?_⟩
              · simpa only [mallocBlockIsFree, hsame] using hbu
              · simpa only [mallocGetBlockLength, hsame] using hsize
        · rw [List.map_cons, List.nodup_cons]
          refine ⟨?_, h.distinct⟩
          intro hmem
          obtain ⟨l, hl, hptr⟩ := List.mem_map.mp hmem
          obtain ⟨b, hb, hbptr, hbu, _⟩ := h.live l hl
          apply (hkeep b hb hbu).2.1
          have heq : dataOf b = dataOf blk := hbptr.symm.trans hptr
          simpa using heq
  | free ptr =>
      obtain ⟨l, hl, rfl⟩ := List.mem_map.mp hvalid
      obtain ⟨b, hb, hptr, hbu, hsize⟩ := h.live l hl
      have hblk : l.1 - 12#32 = b := by
        rw [hptr]
        exact BitVec.add_sub_cancel b 12#32
      have hok : MergesAdjacent L s.mem b := by
        rw [← hblk]
        exact hjoins
      obtain ⟨blks', hrep, hkeep⟩ := free_spec h.rep hb hok
      rw [← hptr] at hrep hkeep
      refine ⟨_, rfl, blks', hrep, ?_, ?_⟩
      · intro l' hl'
        obtain ⟨hmem, hne⟩ : l' ∈ s.live ∧ l'.1 ≠ l.1 := by simpa using hl'
        obtain ⟨b', hb', hptr', hbu', hsize'⟩ := h.live l' hmem
        have hne' : b' ≠ b := by
          rintro rfl
          exact hne (hptr'.trans hptr.symm)
        obtain ⟨hb'', hsame⟩ := hkeep b' hb' hne' hbu'
        refine ⟨b', hb'', hptr', ?_, ?_⟩
        · simpa only [mallocBlockIsFree, hsame] using hbu'
        · simpa only [mallocGetBlockLength, hsame] using hsize'
      · exact h.distinct.sublist (List.filter_sublist.map _)

theorem heapTiling_of_inv (h : HeapInv L s blks) : HeapTiling L s := by
  refine ⟨⟨blks, mallocBlocks_eq h.rep, fun b hb => (h.rep.aligned b hb).1, ?_, ?_⟩, ?_⟩
  · refine h.rep.disjoint.imp fun {a b} hab => ?_
    rw [Set.disjoint_left]
    intro x hxa hxb
    have hxa' := Set.mem_Ico.mp hxa
    have hxb' := Set.mem_Ico.mp hxb
    omega
  · intro x
    rw [Set.mem_Ico, ← h.rep.tiles.contains_iff x]
    constructor
    · rintro ⟨b, hb, hx⟩
      exact ⟨_, List.mem_map.mpr ⟨b, hb, rfl⟩, hx⟩
    · rintro ⟨e, he, hx⟩
      obtain ⟨b, hb, rfl⟩ := List.mem_map.mp he
      exact ⟨b, hb, hx⟩
  · have hdistinct := h.distinct
    rw [List.Nodup, List.pairwise_map] at hdistinct
    refine hdistinct.imp_of_mem fun {l l'} hl hl' hne => ?_
    obtain ⟨b, hb, hptr, _, hsize⟩ := h.live l hl
    obtain ⟨b', hb', hptr', _, hsize'⟩ := h.live l' hl'
    have hbb : b ≠ b' := by
      rintro rfl
      exact hne (hptr.trans hptr'.symm)
    have hin := h.rep.inside hb
    have hin' := h.rep.inside hb'
    have hlen := h.rep.header b hb
    have hlen' := h.rep.header b' hb'
    have hstop := L.stop.isLt
    have hdata : l.1.toNat = b.toNat + 12 := by
      rw [hptr]
      bv_omega
    have hdata' : l'.1.toNat = b'.toNat + 12 := by
      rw [hptr']
      bv_omega
    -- up to three bytes of a data area can lie in the header behind its block
    have hapart := h.rep.apart hb hb' hbb
    rw [Set.disjoint_left]
    intro x hx hx'
    have hxl := Set.mem_Ico.mp hx
    have hxl' := Set.mem_Ico.mp hx'
    omega

/-- Every history of valid calls keeps the heap partitioned. -/
def HeapSafe (L : HeapLayout) (m : Memory) (ok : HeapState → HeapOp → Prop) : Prop :=
  ∀ ops, AllOk ok (heapStep L) (heapBoot L m) ops →
    ∃ s, exec (heapStep L) (heapBoot L m) ops = some s ∧ HeapTiling L s

/-- The heap stays partitioned as long as every `__free` joins neighbours in memory and
no size wraps around. -/
theorem heapSafe_of_joins (L : HeapLayout) (m : Memory) :
    HeapSafe L m fun s op => op.Valid s ∧ op.Joins L s := by
  intro ops hops
  obtain ⟨s, hrun, blks, hinv⟩ := exec_of_allOk
    (fun s op (h : ∃ blks, HeapInv L s blks) hok =>
      h.elim fun blks hinv => heapStep_spec hinv hok.1 hok.2)
    ⟨_, heapInv_boot L m⟩ hops
  exact ⟨s, hrun, heapTiling_of_inv hinv⟩

/-- The user heap of 10K at the start of RAM, with the list head behind it. -/
def ramHeap : HeapLayout where
  start := 0x20000000
  stop := 0x20002800
  mallocList := 0x20010000
  start_aligned := by decide
  stop_aligned := by decide
  room := by decide
  small := by decide
  list_outside := by decide
  list_fits := by decide

theorem heapSafe_of_joins_at_ram :
    ∃ s, exec (heapStep ramHeap) (heapBoot ramHeap fun _ => 0)
        [.malloc 8, .malloc 8, .free 0x200027e4, .free 0x200027f8] = some s ∧
      HeapTiling ramHeap s :=
  heapSafe_of_joins ramHeap (fun _ => 0) [.malloc 8, .malloc 8, .free 0x200027e4, .free 0x200027f8]
    (by decide +kernel)

private theorem first_freed_blocks :
    (exec (heapStep ramHeap) (heapBoot ramHeap fun _ => 0)
      [.malloc 8, .malloc 8, .free 0x200027f8]).bind
        (fun s => (mallocBlocks ramHeap s.mem).map
          fun blks => blks.map fun b => (b, mallocGetBlockLength s.mem b)) =
      some [(0x20000000, 10220), (0x200027d8, 20)] := by
  decide +kernel

/-- Two blocks are taken, and the one taken first is given back: it joins the rest of
the heap, which the second one separates it from. -/
theorem heapSafe_not_for_valid_calls :
    ¬ HeapSafe ramHeap (fun _ => 0) fun s op => op.Valid s := by
  intro hsafe
  obtain ⟨s, hrun, ⟨blks, hblks, _, hdisjoint, _⟩, _⟩ :=
    hsafe [.malloc 8, .malloc 8, .free 0x200027f8] (by decide +kernel)
  have hcomp := first_freed_blocks
  rw [hrun] at hcomp
  simp only [Option.bind_some, hblks, Option.map_some, Option.some.injEq] at hcomp
  obtain ⟨rest, behind, rfl, hrest, hbehind⟩ := List.map_eq_cons_iff.mp hcomp
  obtain ⟨used, _, rfl, hused, _⟩ := List.map_eq_cons_iff.mp hbehind
  obtain ⟨hrest, hlen⟩ := Prod.mk.inj hrest
  obtain ⟨hused, hlen'⟩ := Prod.mk.inj hused
  have hmeet := (List.pairwise_cons.mp hdisjoint).1 used (by simp)
  rw [Set.disjoint_left] at hmeet
  refine hmeet (Set.mem_Ico.mpr ?_ : (0x200027d8#32).toNat ∈ blockSpan s.mem rest)
    (Set.mem_Ico.mpr ?_)
  · rw [hlen, hrest]
    decide
  · rw [hlen', hused]
    decide

end Invariant

end Tenok
