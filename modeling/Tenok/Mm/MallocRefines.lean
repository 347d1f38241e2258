import Mathlib.Data.List.Induction
import Mathlib.Data.List.Nodup
import Mathlib.Data.List.Perm.Subperm
import Tenok.Lib.Extent
import Tenok.Mm.Malloc

/-!
The heap as a list of blocks that tile the region between the two linker symbols. Each
operation is described by what it does to the list and to the two fields of
`block_info`; the addresses of the headers are far enough apart for the writes not to
meet.
-/
namespace Tenok
open Ring Extents

/-- The headers at the two addresses do not overlap. -/
def Far (a b : Word) : Prop := a.toNat + 12 ≤ b.toNat ∨ b.toNat + 12 ≤ a.toNat

theorem Far.symm {a b : Word} (h : Far a b) : Far b a := Or.symm h

structure Headers (L : HeapLayout) (H : List Word) : Prop where
  far : H.Pairwise Far
  inside : ∀ b ∈ H, L.start.toNat ≤ b.toNat ∧ b.toNat + 12 ≤ L.stop.toNat

section Headers
variable {L : HeapLayout} {H : List Word} {m m' : Memory} {b : Word}

theorem Headers.far_of_ne (h : Headers L H) {a b : Word} (ha : a ∈ H) (hb : b ∈ H) (hne : a ≠ b) :
    Far a b := by
  have : Std.Symm Far := ⟨fun _ _ => Far.symm⟩
  exact h.far.forall ha hb hne

/-- The list nodes of the heap: the head and the one in each header. -/
abbrev nodes (L : HeapLayout) (H : List Word) : List Word := L.mallocList :: H.map listOf

theorem Headers.nodes_apart (h : Headers L H) : (nodes L H).Pairwise (Apart Memory) := by
  have houtside := L.list_outside
  have hfits := L.list_fits
  rw [nodes, List.pairwise_cons, List.pairwise_map]
  refine ⟨?_, h.far.imp_of_mem fun {a b} ha hb hfar => ?_⟩
  · intro x hx
    obtain ⟨b, hb, rfl⟩ := List.mem_map.mp hx
    have hin := h.inside b hb
    have hstop := L.stop.isLt
    refine ⟨?_, ?_, ?_⟩ <;> bv_omega
  · have hina := h.inside a ha
    have hinb := h.inside b hb
    have hstop := L.stop.isLt
    unfold Far at hfar
    refine ⟨?_, ?_, ?_⟩ <;> bv_omega

theorem Headers.link_ne (h : Headers L H) (hb : b ∈ H) {x : Word} (hx : x ∈ nodes L H) :
    x ≠ b ∧ x + 4#32 ≠ b := by
  have houtside := L.list_outside
  have hfits := L.list_fits
  have hin := h.inside b hb
  have hstop := L.stop.isLt
  cases List.mem_cons.mp hx with
  | inl hx =>
      subst hx
      constructor <;> bv_omega
  | inr hx =>
      obtain ⟨a, ha, rfl⟩ := List.mem_map.mp hx
      have hina := h.inside a ha
      by_cases hab : a = b
      · subst hab
        constructor <;> bv_omega
      · have hfar := h.far_of_ne ha hb hab
        unfold Far at hfar
        constructor <;> bv_omega

theorem Headers.of_sublist {H' : List Word} (h : Headers L H) (hsub : List.Sublist H' H) :
    Headers L H' := ⟨h.far.sublist hsub, fun b hb => h.inside b (hsub.subset hb)⟩

theorem IsRing.write_info {H' : List Word} (hring : IsRing m L.mallocList (H'.map listOf))
    (h : Headers L H) (hsub : H' ⊆ H) (hb : b ∈ H) (hm : ∀ a, b ≠ a → m' a = m a) :
    IsRing m' L.mallocList (H'.map listOf) := by
  have hne : ∀ x ∈ nodes L H', x ≠ b ∧ x + 4#32 ≠ b := by
    intro x hx
    apply h.link_ne hb
    simp only [List.mem_cons, List.mem_map] at hx ⊢
    exact hx.imp_right fun ⟨a, ha, hax⟩ => ⟨a, hsub ha, hax⟩
  exact hring.frame (fun x hx => hm x (hne x hx).1.symm) fun x hx => hm _ (hne x hx).2.symm

private theorem listAdd_apply {new head : Word} (hne : Apart Memory new head)
    (hnew : new ≠ b ∧ new + 4#32 ≠ b) (hhead : head + 4#32 ≠ b) (hprev : prev m head ≠ b) :
    listAdd m new head b = m b := by
  have hlast : prev (setNext (setPrev m new (prev m head)) new head) head = prev m head := by
    rw [LinkStore.prev_setNext_apart _ _ hne, LinkStore.prev_setPrev_apart _ _ hne]
  rw [listAdd, hlast]
  calc
    _ = setNext (setNext (setPrev m new (prev m head)) new head) (prev m head) new b :=
      Memory.write_ne _ _ hhead
    _ = setNext (setPrev m new (prev m head)) new head b := Memory.write_ne _ _ hprev
    _ = setPrev m new (prev m head) b := Memory.write_ne _ _ hnew.1
    _ = m b := Memory.write_ne _ _ hnew.2

private theorem listDel_apply {e : Word} (hnext : next m e + 4#32 ≠ b) (hprev : prev m e ≠ b) :
    listDel m e b = m b := by
  have hlast : prev (setPrev m (next m e) (prev m e)) e = prev m e := by
    by_cases h : e = next m e
    · rw [← h, LinkStore.prev_setPrev_self]
    · refine Memory.write_ne _ _ ?_
      simpa using Ne.symm h
  rw [listDel, hlast]
  exact (Memory.write_ne _ _ hprev).trans (Memory.write_ne _ _ hnext)

theorem Headers.listAdd_info {H' : List Word} {new : Word} (h : Headers L (new :: H'))
    (hring : IsRing m L.mallocList (H'.map listOf)) (hb : b ∈ new :: H') :
    listAdd m (listOf new) L.mallocList b = m b := by
  have happart := h.nodes_apart
  simp only [nodes, List.map_cons, List.pairwise_cons] at happart
  have hlast : prev m L.mallocList ∈ nodes L H' := hring.segment.prev_mem
  refine listAdd_apply (LinkStore.apart_symm (happart.1 _ (by simp))) (h.link_ne hb (by simp))
    (h.link_ne hb (by simp)).2 (h.link_ne hb ?_).1
  simp only [List.map_cons, List.mem_cons] at hlast ⊢
  exact hlast.imp_right Or.inr

theorem Headers.listDel_info {l l' : List Word} {e : Word} (h : Headers L (l ++ e :: l'))
    (hring : IsRing m L.mallocList ((l ++ e :: l').map listOf)) (hb : b ∈ l ++ e :: l') :
    listDel m (listOf e) b = m b := by
  have hseg := hring.segment
  rw [List.map_append, List.map_cons, segment_append] at hseg
  have hprev : prev m (listOf e) ∈ nodes L (l ++ e :: l') := by
    have hmem := hseg.1.prev_mem
    rw [nodes, List.map_append]
    simp only [List.mem_cons, List.mem_append] at hmem ⊢
    exact hmem.imp_right Or.inl
  have hnext : next m (listOf e) ∈ nodes L (l ++ e :: l') := by
    have hmem := hseg.2.next_mem
    rw [nodes, List.map_append, List.map_cons]
    simp only [List.mem_cons, List.mem_append, List.not_mem_nil, or_false] at hmem ⊢
    exact hmem.elim (fun hl => Or.inr (Or.inr (Or.inr hl))) Or.inl
  exact listDel_apply (h.link_ne hb hnext).2 (h.link_ne hb hprev).1

end Headers

def extents (m : Memory) (blks : List Word) : List Extent :=
  blks.map fun b => ⟨b.toNat, (mallocGetBlockLength m b).toNat⟩

structure HeapRep (L : HeapLayout) (m : Memory) (blks : List Word) : Prop where
  ring : IsRing m L.mallocList (blks.map listOf)
  tiles : Tiles L.start.toNat L.stop.toNat (extents m blks)
  header : ∀ b ∈ blks, 12 ≤ (mallocGetBlockLength m b).toNat
  aligned : ∀ b ∈ blks, 4 ∣ b.toNat ∧ 4 ∣ (mallocGetBlockLength m b).toNat

section Rep
variable {L : HeapLayout} {m m' : Memory} {blks l l' : List Word} {b blk : Word}

theorem HeapRep.inside (h : HeapRep L m blks) (hb : b ∈ blks) :
    L.start.toNat ≤ b.toNat ∧
      b.toNat + (mallocGetBlockLength m b).toNat ≤ L.stop.toNat := by
  have hlen := h.header b hb
  exact h.tiles.inside (List.mem_map.mpr ⟨b, hb, rfl⟩) (by simp only; omega)

theorem HeapRep.length_lt (h : HeapRep L m blks) (hb : b ∈ blks) :
    (mallocGetBlockLength m b).toNat < 2 ^ 30 := by
  have hin := h.inside hb
  have hsmall := L.small
  omega

theorem HeapRep.disjoint (h : HeapRep L m blks) : blks.Pairwise fun a b =>
    a.toNat + (mallocGetBlockLength m a).toNat ≤ b.toNat ∨
      b.toNat + (mallocGetBlockLength m b).toNat ≤ a.toNat := by
  have hpair := h.tiles.disjoint
  rw [extents, List.pairwise_map] at hpair
  refine hpair.imp_of_mem fun {a b} ha hb hd => ?_
  have hla := h.header a ha
  have hlb := h.header b hb
  exact Extent.before_or_after (by simp only; omega) (by simp only; omega) hd

theorem HeapRep.headers (h : HeapRep L m blks) : Headers L blks := by
  refine ⟨h.disjoint.imp_of_mem fun {a b} ha hb hd => ?_, fun b hb => ?_⟩
  · have hla := h.header a ha
    have hlb := h.header b hb
    unfold Far
    omega
  · have hin := h.inside hb
    have hlen := h.header b hb
    omega

theorem extents_congr (h : ∀ b ∈ blks, mallocGetBlockLength m' b = mallocGetBlockLength m b) :
    extents m' blks = extents m blks := by
  apply List.map_congr_left
  intro b hb
  rw [h b hb]

@[simp] theorem extents_cons (m : Memory) (b : Word) (l : List Word) :
    extents m (b :: l) = ⟨b.toNat, (mallocGetBlockLength m b).toNat⟩ :: extents m l := rfl

@[simp] theorem extents_append (m : Memory) (l l' : List Word) :
    extents m (l ++ l') = extents m l ++ extents m l' := List.map_append

theorem HeapRep.nodup (h : HeapRep L m blks) : blks.Nodup :=
  List.Nodup.of_map _ (List.nodup_cons.mp h.ring.nodup).2

theorem HeapRep.setFree (h : HeapRep L m blks) (hblk : blk ∈ blks) (free : Bool) :
    HeapRep L (mallocSetBlockFree m blk free) blks := by
  have hlen : ∀ b, mallocGetBlockLength (mallocSetBlockFree m blk free) b =
      mallocGetBlockLength m b := by
    intro b
    by_cases hb : blk = b
    · subst hb
      exact mallocGetBlockLength_setFree ..
    · simp only [mallocGetBlockLength, mallocSetBlockFree_ne free hb]
  refine ⟨?_, ?_, ?_, ?_⟩
  · exact IsRing.write_info h.ring h.headers (fun _ => id) hblk fun a => mallocSetBlockFree_ne free
  · rw [extents_congr fun b _ => hlen b]
    exact h.tiles
  · intro b hb
    rw [hlen]
    exact h.header b hb
  · intro b hb
    rw [hlen]
    exact h.aligned b hb

end Rep

section Malloc
variable {L : HeapLayout} {m : Memory} {blks : List Word} {blk allocSize : Word}

@[simp] theorem blockOf_listOf (blk : Word) : blockOf (listOf blk) = blk :=
  BitVec.add_sub_cancel blk 4#32

private theorem mallocTry_inl {node : Word} {m' : Memory}
    (h : mallocTry L allocSize m node = .inl m') : m' = m := by
  simp only [mallocTry] at h
  split at h
  · split at h
    · exact (Sum.inl.inj h).symm
    · split at h <;> simp at h
  · exact (Sum.inl.inj h).symm

def mallocTake (L : HeapLayout) (m : Memory) (blk allocSize : Word) : Memory × Word :=
  if mallocGetBlockLength m blk < allocSize + mallocInfoSize then
    (mallocSetBlockFree m blk false, dataOf blk)
  else mallocSplit L m blk allocSize

private theorem mallocTry_listOf (L : HeapLayout) (m : Memory) (blk allocSize : Word) :
    mallocTry L allocSize m (listOf blk) =
      if mallocBlockIsFree m blk ∧ ¬ mallocGetBlockLength m blk < allocSize then
        .inr (mallocTake L m blk allocSize)
      else .inl m := by
  simp only [mallocTry, blockOf_listOf, mallocTake]
  by_cases hf : mallocBlockIsFree m blk = true
  · by_cases hl : mallocGetBlockLength m blk < allocSize
    · simp [hf, hl]
    · simp only [hf, hl, if_true, if_false, not_false_eq_true, and_self]
      split <;> rfl
  · simp [hf]

/-- The block that the loop of `__malloc` stops at. -/
def firstFit (m : Memory) (blks : List Word) (allocSize : Word) : Option Word :=
  blks.find? fun b => mallocBlockIsFree m b && !decide (mallocGetBlockLength m b < allocSize)

theorem firstFit_some (h : firstFit m blks allocSize = some blk) :
    blk ∈ blks ∧ mallocBlockIsFree m blk = true ∧ ¬ mallocGetBlockLength m blk < allocSize := by
  have hfits := List.find?_some h
  rw [Bool.and_eq_true, Bool.not_eq_true', decide_eq_false_iff_not] at hfits
  exact ⟨List.mem_of_find?_eq_some h, hfits⟩

private theorem forEach_mallocTry (L : HeapLayout) (m : Memory) (blks : List Word) :
    forEach (mallocTry L allocSize) m (blks.map listOf) =
      match firstFit m blks allocSize with
      | none => .inl m
      | some blk => .inr (mallocTake L m blk allocSize) := by
  induction blks with
  | nil => rfl
  | cons b blks ih =>
      simp only [List.map_cons, forEach, mallocTry_listOf]
      by_cases h : mallocBlockIsFree m b = true ∧ ¬ mallocGetBlockLength m b < allocSize
      · rw [if_pos h]
        simp only [firstFit, List.find?_cons, h.1, h.2, decide_false, Bool.not_false, Bool.and_self]
      · have hskip : (mallocBlockIsFree m b && !decide (mallocGetBlockLength m b < allocSize)) =
            false := by
          rw [Bool.eq_false_iff]
          intro hfits
          rw [Bool.and_eq_true, Bool.not_eq_true', decide_eq_false_iff_not] at hfits
          exact h hfits
        simp only [if_neg h, firstFit, List.find?_cons, hskip]
        exact ih

theorem length_lt_fuel (h : HeapRep L m blks) : (blks.map listOf).length < memoryFuel := by
  have hnd : ((nodes L blks).map BitVec.toNat).Nodup :=
    List.Nodup.map (fun _ _ => BitVec.eq_of_toNat_eq) h.ring.nodup
  have hsub : (nodes L blks).map BitVec.toNat ⊆ List.range (2 ^ 32) := by
    intro n hn
    obtain ⟨w, _, rfl⟩ := List.mem_map.mp hn
    exact List.mem_range.mpr w.isLt
  have hle := (hnd.subperm hsub).length_le
  rw [List.length_map, List.length_range] at hle
  exact hle

theorem malloc_firstFit (h : HeapRep L m blks) (size : Word) :
    malloc L m size =
      match firstFit m blks (align (size + mallocInfoSize) 4#32) with
      | none => some (m, none)
      | some blk =>
          let r := mallocTake L m blk (align (size + mallocInfoSize) 4#32)
          some (r.1, some r.2) := by
  have hloop : listForEach id L.mallocList (mallocTry L (align (size + mallocInfoSize) 4#32))
      memoryFuel m (next m L.mallocList) = some (forEach _ m (blks.map listOf)) :=
    listForEach_eq (fun _ _ _ => mallocTry_inl) _ m h.ring.segment.path h.ring.head_notMem
      (length_lt_fuel h)
  rw [malloc, hloop, forEach_mallocTry]
  cases firstFit m blks (align (size + mallocInfoSize) 4#32) <;> rfl

theorem malloc_eq (h : HeapRep L m blks) (size : Word) :
    malloc L m size = some (m, none) ∨
      ∃ blk ∈ blks, mallocBlockIsFree m blk = true ∧
        ¬ mallocGetBlockLength m blk < align (size + mallocInfoSize) 4#32 ∧
        malloc L m size =
          let r := mallocTake L m blk (align (size + mallocInfoSize) 4#32)
          some (r.1, some r.2) := by
  rw [malloc_firstFit h]
  cases hfit : firstFit m blks (align (size + mallocInfoSize) 4#32) with
  | none => exact Or.inl rfl
  | some blk =>
      obtain ⟨hblk, hfree, hlen⟩ := firstFit_some hfit
      exact Or.inr ⟨blk, hblk, hfree, hlen, rfl⟩

theorem allocSize_spec {size : Word} (hsize : size.toNat + 12 < 2 ^ 32) :
    (align (size + mallocInfoSize) 4#32).toNat = (size.toNat + 12) / 4 * 4 := by
  have hfour : 4#32 = 1#32 <<< 2 := by decide
  rw [hfour, align_two_pow_toNat _ 2 (by decide), BitVec.toNat_add]
  simp only [BitVec.toNat_ofNat]
  omega

private theorem HeapRep.split_headers (h : HeapRep L m blks) (hblk : blk ∈ blks) {new : Word}
    (hlow : blk.toNat + 12 ≤ new.toNat)
    (hhigh : new.toNat + 12 ≤ blk.toNat + (mallocGetBlockLength m blk).toNat) :
    Headers L (new :: blks) := by
  refine ⟨List.pairwise_cons.mpr ⟨fun b hb => ?_, h.headers.far⟩, fun b hb => ?_⟩
  · by_cases hne : blk = b
    · subst hne
      exact Or.inr hlow
    · have hd : Std.Symm fun a b : Word =>
          a.toNat + (mallocGetBlockLength m a).toNat ≤ b.toNat ∨
            b.toNat + (mallocGetBlockLength m b).toNat ≤ a.toNat := ⟨fun _ _ => Or.symm⟩
      have hapart := h.disjoint.forall hblk hb hne
      have hlen := h.header b hb
      unfold Far
      omega
  · have hin := h.inside hblk
    cases List.mem_cons.mp hb with
    | inl hb =>
        subst hb
        omega
    | inr hb => exact h.headers.inside b hb

/-- The memory after `malloc_split`. -/
structure SplitOff (L : HeapLayout) (m : Memory) (blks : List Word) (blk allocSize : Word)
    (m' : Memory) (new : Word) : Prop where
  place : new.toNat = blk.toNat + ((mallocGetBlockLength m blk).toNat - allocSize.toNat)
  fresh : new ∉ blks
  ring : IsRing m' L.mallocList ((blks ++ [new]).map listOf)
  keep : ∀ b ∈ blks, b ≠ blk → m' b = m b
  rest : mallocGetBlockLength m' blk = mallocGetBlockLength m blk - allocSize
  length : mallocGetBlockLength m' new = allocSize
  used : mallocBlockIsFree m' new = false

theorem mallocSplit_splitOff (h : HeapRep L m blks) (hblk : blk ∈ blks)
    (hsize : 12 ≤ allocSize.toNat) (hfour : 4 ∣ allocSize.toNat)
    (hfit : allocSize.toNat + 12 ≤ (mallocGetBlockLength m blk).toNat) :
    ∃ m' new, mallocSplit L m blk allocSize = (m', dataOf new) ∧
      SplitOff L m blks blk allocSize m' new := by
  have hlt := h.length_lt hblk
  have hin := h.inside hblk
  have hstop := L.stop.isLt
  have hal := h.aligned blk hblk
  have hrest : (mallocGetBlockLength m blk - allocSize).toNat =
      (mallocGetBlockLength m blk).toNat - allocSize.toNat := by bv_omega
  generalize hm1 : mallocSetBlockLength m blk (mallocGetBlockLength m blk - allocSize) = m1
  have hlen1 : mallocGetBlockLength m1 blk = mallocGetBlockLength m blk - allocSize := by
    rw [← hm1, mallocGetBlockLength_setLength _ _ (by omega)]
  have hm1ne : ∀ a, blk ≠ a → m1 a = m a := fun a ha => hm1 ▸ mallocSetBlockLength_ne _ ha
  generalize hnew : blk + (mallocGetBlockLength m blk - allocSize) = new
  have hnewNat : new.toNat = blk.toNat + ((mallocGetBlockLength m blk).toNat - allocSize.toNat) := by
    rw [← hnew, BitVec.toNat_add, hrest]
    omega
  have hH : Headers L (new :: blks) := h.split_headers hblk (by omega) (by omega)
  have hnotin : new ∉ blks := by
    intro hmem
    have hfar := (List.pairwise_cons.mp hH.far).1 new hmem
    unfold Far at hfar
    omega
  have hblkne : blk ≠ new := fun heq => hnotin (heq ▸ hblk)
  generalize hm2 : mallocSetBlockFree m1 new false = m2
  have hm2ne : ∀ a, new ≠ a → m2 a = m1 a := fun a ha => hm2 ▸ mallocSetBlockFree_ne _ ha
  generalize hm3 : mallocSetBlockLength m2 new allocSize = m3
  have hm3ne : ∀ a, new ≠ a → m3 a = m2 a := fun a ha => hm3 ▸ mallocSetBlockLength_ne _ ha
  have hring1 : IsRing m1 L.mallocList (blks.map listOf) :=
    IsRing.write_info h.ring h.headers (fun _ => id) hblk hm1ne
  have hsub : blks ⊆ new :: blks := List.subset_cons_self ..
  have hring3 : IsRing m3 L.mallocList (blks.map listOf) := by
    have hring2 : IsRing m2 L.mallocList (blks.map listOf) :=
      IsRing.write_info hring1 hH hsub (by simp) hm2ne
    exact IsRing.write_info hring2 hH hsub (by simp) hm3ne
  have hinfo : ∀ b ∈ new :: blks, listAdd m3 (listOf new) L.mallocList b = m3 b := fun b hb =>
    hH.listAdd_info hring3 hb
  refine ⟨listAdd m3 (listOf new) L.mallocList, new, ?_, hnewNat, hnotin, ?_, fun b hb hne => ?_, ?_,
    ?_, ?_⟩
  · simp only [mallocSplit, hm1, hlen1, hnew, hm2, hm3]
  · rw [List.map_append]
    apply listAdd_isRing hring3
    have happart := hH.nodes_apart
    simp only [nodes, List.map_cons, List.pairwise_cons] at happart
    intro x hx
    cases List.mem_cons.mp hx with
    | inl hx => exact hx ▸ LinkStore.apart_symm (happart.1 _ (by simp))
    | inr hx => exact happart.2.1 x hx
  · have hbn : new ≠ b := fun heq => hnotin (heq ▸ hb)
    rw [hinfo b (by simp [hb]), hm3ne b hbn, hm2ne b hbn, hm1ne b hne.symm]
  · rw [← hlen1]
    simp only [mallocGetBlockLength, hinfo blk (by simp [hblk]), hm3ne blk hblkne.symm,
      hm2ne blk hblkne.symm]
  · have h3 : mallocGetBlockLength m3 new = allocSize := by
      rw [← hm3, mallocGetBlockLength_setLength _ _ (by omega)]
    rw [← h3]
    simp only [mallocGetBlockLength, hinfo new (by simp)]
  · have hfalse : mallocBlockIsFree m3 new = false := by
      rw [← hm3, mallocBlockIsFree_setLength, ← hm2, mallocBlockIsFree_setFree]
    rw [← hfalse]
    simp only [mallocBlockIsFree, hinfo new (by simp)]

namespace SplitOff
variable {m' : Memory} {new : Word}

theorem length_keep (hs : SplitOff L m blks blk allocSize m' new) {b : Word} (hb : b ∈ blks)
    (hne : b ≠ blk) : mallocGetBlockLength m' b = mallocGetBlockLength m b := by
  simp only [mallocGetBlockLength, hs.keep b hb hne]

theorem tiles (hs : SplitOff L m blks blk allocSize m' new) (h : HeapRep L m blks)
    (hblk : blk ∈ blks) (hfit : allocSize.toNat ≤ (mallocGetBlockLength m blk).toNat) :
    Tiles L.start.toNat L.stop.toNat (extents m' (blks ++ [new])) := by
  have hplace := hs.place
  obtain ⟨l, l', rfl⟩ := List.append_of_mem hblk
  have hnd := h.nodup
  rw [List.nodup_append, List.nodup_cons] at hnd
  have hlen : ∀ b ∈ l ++ l', mallocGetBlockLength m' b = mallocGetBlockLength m b := by
    intro b hb
    have hne : b ≠ blk := by
      rintro rfl
      cases List.mem_append.mp hb with
      | inl hl => exact hnd.2.2 b hl b (by simp) rfl
      | inr hl => exact hnd.2.1.1 hl
    refine hs.length_keep ?_ hne
    simp only [List.mem_append, List.mem_cons] at hb ⊢
    exact hb.imp_right Or.inr
  apply h.tiles.of_cover_eq
  intro x
  have hrest : (mallocGetBlockLength m blk - allocSize).toNat =
      (mallocGetBlockLength m blk).toNat - allocSize.toNat := by bv_omega
  have hmeet : blk.toNat + (mallocGetBlockLength m blk - allocSize).toNat = new.toNat := by omega
  have hwhole : (mallocGetBlockLength m blk - allocSize).toNat + allocSize.toNat =
      (mallocGetBlockLength m blk).toNat := by omega
  have hjoin := contains_join hmeet (n := allocSize.toNat) x
  rw [hwhole] at hjoin
  simp only [extents_append, extents_cons, cover_append, cover_cons, hs.rest, hs.length,
    extents_congr fun b hb => hlen b (List.mem_append_left _ hb),
    extents_congr fun b hb => hlen b (List.mem_append_right _ hb)]
  simp only [extents, List.map_nil, cover_nil]
  omega

theorem heapRep (hs : SplitOff L m blks blk allocSize m' new) (h : HeapRep L m blks)
    (hblk : blk ∈ blks) (hsize : 12 ≤ allocSize.toNat) (hfour : 4 ∣ allocSize.toNat)
    (hfit : allocSize.toNat + 12 ≤ (mallocGetBlockLength m blk).toNat) :
    HeapRep L m' (blks ++ [new]) := by
  have hal := h.aligned blk hblk
  have hrest : (mallocGetBlockLength m' blk).toNat =
      (mallocGetBlockLength m blk).toNat - allocSize.toNat := by
    rw [hs.rest]
    bv_omega
  have hcases : ∀ b ∈ blks ++ [new], b = new ∨ b = blk ∨ b ∈ blks ∧ b ≠ blk := by
    intro b hb
    cases List.mem_append.mp hb with
    | inl hb => exact Or.inr ((em (b = blk)).imp_right fun hne => ⟨hb, hne⟩)
    | inr hb => exact Or.inl (List.mem_singleton.mp hb)
  refine ⟨hs.ring, hs.tiles h hblk (by omega), fun b hb => ?_, fun b hb => ?_⟩
  · obtain rfl | rfl | ⟨hb, hne⟩ := hcases b hb
    · rwa [hs.length]
    · omega
    · exact hs.length_keep hb hne ▸ h.header b hb
  · obtain rfl | rfl | ⟨hb, hne⟩ := hcases b hb
    · have hplace := hs.place
      rw [hs.length]
      omega
    · omega
    · exact hs.length_keep hb hne ▸ h.aligned b hb

end SplitOff

theorem mallocSplit_spec (h : HeapRep L m blks) (hblk : blk ∈ blks)
    (hsize : 12 ≤ allocSize.toNat) (hfour : 4 ∣ allocSize.toNat)
    (hfit : allocSize.toNat + 12 ≤ (mallocGetBlockLength m blk).toNat) :
    ∃ m' new, mallocSplit L m blk allocSize = (m', dataOf new) ∧ new ∉ blks ∧
      HeapRep L m' (blks ++ [new]) ∧ mallocBlockIsFree m' new = false ∧
      mallocGetBlockLength m' new = allocSize ∧ ∀ b ∈ blks, b ≠ blk → m' b = m b := by
  obtain ⟨m', new, hsplit, hs⟩ := mallocSplit_splitOff h hblk hsize hfour hfit
  exact ⟨m', new, hsplit, hs.fresh, hs.heapRep h hblk hsize hfour hfit, hs.used, hs.length, hs.keep⟩

/-- The block is used whole, or its end becomes a block of exactly the allocation size. -/
theorem mallocTake_spec (h : HeapRep L m blks) (hblk : blk ∈ blks)
    (hfree : mallocBlockIsFree m blk = true) (hsize : 12 ≤ allocSize.toNat)
    (hfour : 4 ∣ allocSize.toNat) (hfit : ¬ mallocGetBlockLength m blk < allocSize) :
    ∃ m' blks' new, mallocTake L m blk allocSize = (m', dataOf new) ∧ HeapRep L m' blks' ∧
      new ∈ blks' ∧ mallocBlockIsFree m' new = false ∧
      mallocGetBlockLength m' new =
        (if (mallocGetBlockLength m blk).toNat < allocSize.toNat + 12 then
          mallocGetBlockLength m blk
        else allocSize) ∧
      ∀ b ∈ blks, mallocBlockIsFree m b = false → b ∈ blks' ∧ b ≠ new ∧ m' b = m b := by
  have hlt := h.length_lt hblk
  rw [BitVec.lt_def, Nat.not_lt] at hfit
  have hused : ∀ b, mallocBlockIsFree m b = false → b ≠ blk := by
    rintro b hb rfl
    rw [hfree] at hb
    exact Bool.noConfusion hb
  have hsplit : mallocGetBlockLength m blk < allocSize + mallocInfoSize ↔
      (mallocGetBlockLength m blk).toNat < allocSize.toNat + 12 := by
    rw [BitVec.lt_def, BitVec.toNat_add]
    simp only [BitVec.toNat_ofNat]
    omega
  simp only [mallocTake, hsplit]
  by_cases hwhole : (mallocGetBlockLength m blk).toNat < allocSize.toNat + 12
  · simp only [if_pos hwhole]
    refine ⟨_, blks, blk, rfl, h.setFree hblk false, hblk, mallocBlockIsFree_setFree ..,
      mallocGetBlockLength_setFree .., ?_⟩
    intro b hb hbused
    exact ⟨hb, hused b hbused, mallocSetBlockFree_ne _ (hused b hbused).symm⟩
  · simp only [if_neg hwhole]
    obtain ⟨m', new, heq, hnew, hrep, hnewUsed, hlen, hkeep⟩ :=
      mallocSplit_spec h hblk hsize hfour (by omega)
    refine ⟨m', blks ++ [new], new, heq, hrep, by simp, hnewUsed, hlen, ?_⟩
    intro b hb hbused
    exact ⟨by simp [hb], fun hbn => hnew (hbn ▸ hb), hkeep b hb (hused b hbused)⟩

/-- A successful `__malloc` marks one block as used; the used blocks stay as they are. -/
theorem malloc_spec (h : HeapRep L m blks) {size : Word} (hsize : size.toNat + 12 < 2 ^ 32) :
    malloc L m size = some (m, none) ∨
      ∃ m' blks' blk, malloc L m size = some (m', some (dataOf blk)) ∧ HeapRep L m' blks' ∧
        blk ∈ blks' ∧ mallocBlockIsFree m' blk = false ∧
        size.toNat + 12 < (mallocGetBlockLength m' blk).toNat + 4 ∧
        ∀ b ∈ blks, mallocBlockIsFree m b = false → b ∈ blks' ∧ b ≠ blk ∧ m' b = m b := by
  have halloc := allocSize_spec hsize
  rcases malloc_eq h size with hnull | ⟨blk, hblk, hfree, hfit, hmalloc⟩
  · exact Or.inl hnull
  refine Or.inr ?_
  generalize align (size + mallocInfoSize) 4#32 = allocSize at *
  obtain ⟨m', blks', new, heq, hrep, hnew, hnewUsed, hlen, hkeep⟩ :=
    mallocTake_spec h hblk hfree (by omega) (by omega) hfit
  rw [BitVec.lt_def, Nat.not_lt] at hfit
  refine ⟨m', blks', new, ?_, hrep, hnew, hnewUsed, ?_, hkeep⟩
  · rw [hmalloc, heq]
  · rw [hlen]
    split <;> omega

end Malloc

section Free
variable {L : HeapLayout} {m : Memory} {blks l l' : List Word} {blk a e : Word}

def PrevFree (L : HeapLayout) (m : Memory) (blk : Word) : Prop :=
  prev m (listOf blk) ≠ L.mallocList ∧ mallocBlockIsFree m (blockOf (prev m (listOf blk))) = true

def NextFree (L : HeapLayout) (m : Memory) (blk : Word) : Prop :=
  next m (listOf blk) ≠ L.mallocList ∧ mallocBlockIsFree m (blockOf (next m (listOf blk))) = true

instance : Decidable (PrevFree L m blk) := inferInstanceAs (Decidable (_ ∧ _))

instance : Decidable (NextFree L m blk) := inferInstanceAs (Decidable (_ ∧ _))

def blockEnd (m : Memory) (blk : Word) : Word := blk + mallocGetBlockLength m blk

/-- The blocks that `__free` joins fill one range that starts at the first of them. -/
def MergesAdjacent (L : HeapLayout) (m : Memory) (blk : Word) : Prop :=
  let prevBlk := blockOf (prev m (listOf blk))
  let nextBlk := blockOf (next m (listOf blk))
  if PrevFree L m blk then
    if NextFree L m blk then
      (blockEnd m prevBlk = blk ∧ blockEnd m blk = nextBlk) ∨
        (blockEnd m prevBlk = nextBlk ∧ blockEnd m nextBlk = blk)
    else blockEnd m prevBlk = blk
  else if NextFree L m blk then blockEnd m blk = nextBlk
  else True

instance : Decidable (MergesAdjacent L m blk) :=
  inferInstanceAs (Decidable (if PrevFree L m blk then if NextFree L m blk then _ ∨ _ else _ = _
    else if NextFree L m blk then _ = _ else True))

/-- What both halves of `__free` do with a free neighbour. -/
def mergeInto (m : Memory) (a e : Word) : Memory :=
  listDel (mallocSetBlockLength m a (mallocGetBlockLength m a + mallocGetBlockLength m e)) (listOf e)

theorem mergeInto_spec (hH : Headers L (l ++ e :: l'))
    (hring : IsRing m L.mallocList ((l ++ e :: l').map listOf)) (ha : a ∈ l ++ l')
    (hlen : (mallocGetBlockLength m a).toNat + (mallocGetBlockLength m e).toNat < 2 ^ 30) :
    IsRing (mergeInto m a e) L.mallocList ((l ++ l').map listOf) ∧
      (∀ b ∈ l ++ e :: l', b ≠ a → mergeInto m a e b = m b) ∧
      mallocBlockIsFree (mergeInto m a e) a = mallocBlockIsFree m a ∧
      (mallocGetBlockLength (mergeInto m a e) a).toNat =
        (mallocGetBlockLength m a).toNat + (mallocGetBlockLength m e).toNat := by
  have hmem : a ∈ l ++ e :: l' := by
    simp only [List.mem_append, List.mem_cons] at ha ⊢
    exact ha.imp_right Or.inr
  generalize hsum : mallocGetBlockLength m a + mallocGetBlockLength m e = sum
  have hsumNat : sum.toNat =
      (mallocGetBlockLength m a).toNat + (mallocGetBlockLength m e).toNat := by
    rw [← hsum, BitVec.toNat_add]
    omega
  have hring1 : IsRing (mallocSetBlockLength m a sum) L.mallocList ((l ++ e :: l').map listOf) :=
    IsRing.write_info hring hH (fun _ => id) hmem fun _ => mallocSetBlockLength_ne sum
  have hinfo : ∀ b ∈ l ++ e :: l', mergeInto m a e b = mallocSetBlockLength m a sum b := by
    intro b hb
    rw [mergeInto, hsum]
    exact hH.listDel_info hring1 hb
  refine ⟨?_, ?_, ?_, ?_⟩
  · rw [mergeInto, hsum, List.map_append]
    rw [List.map_append, List.map_cons] at hring1
    exact listDel_isRing hring1
  · intro b hb hne
    rw [hinfo b hb, mallocSetBlockLength_ne _ hne.symm]
  · rw [← mallocBlockIsFree_setLength m a sum]
    simp only [mallocBlockIsFree, hinfo a hmem]
  · rw [← hsumNat, ← mallocGetBlockLength_setLength m a (show sum.toNat < 2 ^ 30 by omega)]
    simp only [mallocGetBlockLength, hinfo a hmem]

private theorem neighbours (hring : IsRing m L.mallocList ((l ++ a :: e :: l').map listOf)) :
    prev m (listOf e) = listOf a ∧ next m (listOf a) = listOf e ∧
      listOf a ≠ L.mallocList ∧ listOf e ≠ L.mallocList := by
  have hseg := hring.segment
  have hnd := hring.head_notMem
  simp only [List.map_append, List.map_cons] at hseg hnd
  rw [segment_append] at hseg
  refine ⟨hseg.2.2.1, hseg.2.1, ?_, ?_⟩
  · intro heq
    exact hnd (by simp [← heq])
  · intro heq
    exact hnd (by simp [← heq])

theorem mergePrev_cases (hring : IsRing m L.mallocList ((l ++ blk :: l').map listOf)) :
    (mergePrev L m blk = (m, blk) ∧ ¬ PrevFree L m blk) ∨
      ∃ k p, l = k ++ [p] ∧ mallocBlockIsFree m p = true ∧
        mergePrev L m blk = (mergeInto m p blk, p) ∧ PrevFree L m blk ∧
        blockOf (prev m (listOf blk)) = p := by
  cases l using List.reverseRecOn with
  | nil =>
      have hprev : prev m (listOf blk) = L.mallocList := hring.segment.2.1
      refine Or.inl ⟨?_, fun h => h.1 hprev⟩
      rw [mergePrev, hprev, if_neg (by simp)]
  | append_singleton k p =>
      rw [List.append_assoc] at hring
      obtain ⟨hprev, _, hne, _⟩ := neighbours hring
      have hblock : blockOf (prev m (listOf blk)) = p := by rw [hprev, blockOf_listOf]
      have heq : mergePrev L m blk =
          if mallocBlockIsFree m p then (mergeInto m p blk, p) else (m, blk) := by
        rw [mergePrev, hprev, if_pos hne, blockOf_listOf]
        rfl
      by_cases hfree : mallocBlockIsFree m p = true
      · exact Or.inr ⟨k, p, rfl, hfree, by rw [heq, if_pos hfree],
          ⟨hprev ▸ hne, by rw [hblock, hfree]⟩, hblock⟩
      · refine Or.inl ⟨by rw [heq, if_neg hfree], fun h => hfree ?_⟩
        rw [← hblock]
        exact h.2

theorem mergeNext_eq (hring : IsRing m L.mallocList ((l ++ blk :: l').map listOf)) :
    mergeNext L m blk = match l' with
      | [] => m
      | n :: _ => if mallocBlockIsFree m n then mergeInto m blk n else m := by
  cases l' with
  | nil =>
      have hseg := hring.segment
      rw [List.map_append, List.map_cons, List.map_nil, segment_append] at hseg
      have hnext : next m (listOf blk) = L.mallocList := hseg.2.1
      rw [mergeNext, hnext, if_neg (by simp)]
  | cons n l' =>
      obtain ⟨_, hnext, _, hne⟩ := neighbours hring
      rw [mergeNext, hnext, if_pos hne, blockOf_listOf]
      rfl

theorem nextFree_cases (hring : IsRing m L.mallocList ((l ++ blk :: l').map listOf)) :
    (¬ NextFree L m blk ∧ ∀ n k, l' = n :: k → mallocBlockIsFree m n = false) ∨
      ∃ n k, l' = n :: k ∧ mallocBlockIsFree m n = true ∧ NextFree L m blk ∧
        blockOf (next m (listOf blk)) = n := by
  cases l' with
  | nil =>
      have hseg := hring.segment
      rw [List.map_append, List.map_cons, List.map_nil, segment_append] at hseg
      exact Or.inl ⟨fun h => h.1 hseg.2.1, by simp⟩
  | cons n l' =>
      obtain ⟨_, hnext, _, hne⟩ := neighbours hring
      have hblock : blockOf (next m (listOf blk)) = n := by rw [hnext, blockOf_listOf]
      by_cases hfree : mallocBlockIsFree m n = true
      · exact Or.inr ⟨n, l', rfl, hfree, ⟨hnext ▸ hne, by rw [hblock, hfree]⟩, hblock⟩
      · refine Or.inl ⟨fun h => hfree (hblock ▸ h.2), ?_⟩
        intro n' k heq
        obtain ⟨rfl, _⟩ := List.cons.inj heq
        simpa using hfree

theorem HeapRep.merge {m' : Memory} {k k' : List Word} {total : Nat} (h : HeapRep L m blks)
    (hring : IsRing m' L.mallocList ((k ++ a :: k').map listOf)) (hsub : k ++ k' ⊆ blks)
    (ha : a ∈ blks) (hkeep : ∀ b ∈ k ++ k', m' b = m b)
    (hlen : (mallocGetBlockLength m' a).toNat = total) (hheader : 12 ≤ total) (hfour : 4 ∣ total)
    (hcover : ∀ x, cover (extents m blks) x =
      cover (extents m (k ++ k')) x + if (Extent.mk a.toNat total).Contains x then 1 else 0) :
    HeapRep L m' (k ++ a :: k') := by
  have hlenKeep : ∀ b ∈ k ++ k', mallocGetBlockLength m' b = mallocGetBlockLength m b := by
    intro b hb
    simp only [mallocGetBlockLength, hkeep b hb]
  have hsplit : ∀ b ∈ k ++ a :: k', b = a ∨ b ∈ k ++ k' := by
    intro b hb
    simp only [List.mem_append, List.mem_cons] at hb ⊢
    tauto
  refine ⟨hring, ?_, ?_, ?_⟩
  · apply h.tiles.of_cover_eq
    intro x
    rw [hcover x, ← extents_congr hlenKeep]
    simp only [extents_append, extents_cons, cover_append, cover_cons, hlen]
    omega
  · intro b hb
    rcases hsplit b hb with rfl | hb
    · rw [hlen]
      exact hheader
    · rw [hlenKeep b hb]
      exact h.header b (hsub hb)
  · intro b hb
    rcases hsplit b hb with rfl | hb
    · exact ⟨(h.aligned b ha).1, by rw [hlen]; exact hfour⟩
    · rw [hlenKeep b hb]
      exact h.aligned b (hsub hb)

theorem HeapRep.apart (h : HeapRep L m blks) (ha : a ∈ blks) (he : e ∈ blks) (hne : a ≠ e) :
    a.toNat + (mallocGetBlockLength m a).toNat ≤ e.toNat ∨
      e.toNat + (mallocGetBlockLength m e).toNat ≤ a.toNat := by
  have : Std.Symm fun a b : Word =>
      a.toNat + (mallocGetBlockLength m a).toNat ≤ b.toNat ∨
        b.toNat + (mallocGetBlockLength m b).toNat ≤ a.toNat := ⟨fun _ _ => Or.symm⟩
  exact h.disjoint.forall ha he hne

theorem HeapRep.blockEnd_eq (h : HeapRep L m blks) (ha : a ∈ blks) (heq : blockEnd m a = e) :
    a.toNat + (mallocGetBlockLength m a).toNat = e.toNat := by
  have hin := h.inside ha
  have hstop := L.stop.isLt
  rw [← heq, blockEnd, BitVec.toNat_add]
  omega

theorem HeapRep.of_mergeInto {k k' : List Word} (h : HeapRep L m (k ++ a :: e :: k'))
    (hadj : blockEnd m a = e) : HeapRep L (mergeInto m a e) (k ++ a :: k') ∧
      (∀ b ∈ k ++ a :: k', b ≠ a → mergeInto m a e b = m b) ∧
      mallocBlockIsFree (mergeInto m a e) a = mallocBlockIsFree m a ∧
      blockEnd (mergeInto m a e) a = blockEnd m e := by
  have hlist : k ++ a :: e :: k' = (k ++ [a]) ++ e :: k' := by simp
  have hlist' : (k ++ [a]) ++ k' = k ++ a :: k' := by simp
  have ha : a ∈ k ++ a :: e :: k' := by simp
  have he : e ∈ k ++ a :: e :: k' := by simp
  have hend := h.blockEnd_eq ha hadj
  have hina := h.inside ha
  have hine := h.inside he
  have hsmall := L.small
  have hheader := h.header a ha
  have hala := h.aligned a ha
  have hale := h.aligned e he
  obtain ⟨hring, hkeep, hflag, hlen⟩ := mergeInto_spec (hlist ▸ h.headers) (hlist ▸ h.ring)
    (show a ∈ (k ++ [a]) ++ k' by simp) (by omega)
  rw [← hlist] at hkeep
  rw [hlist'] at hring
  have hnd := h.nodup
  simp only [List.nodup_append, List.nodup_cons, List.mem_cons] at hnd
  have hne : ∀ b ∈ k ++ k', b ≠ a := by
    rintro b hb rfl
    cases List.mem_append.mp hb with
    | inl hb => exact hnd.2.2 b hb b (Or.inl rfl) rfl
    | inr hb => exact hnd.2.1.1 (Or.inr hb)
  have hsub : k ++ k' ⊆ k ++ a :: e :: k' := by
    intro b hb
    simp only [List.mem_append, List.mem_cons] at hb ⊢
    tauto
  refine ⟨h.merge hring hsub ha (fun b hb => hkeep b (hsub hb) (hne b hb)) hlen (by omega)
    (by omega) ?_, ?_, hflag, ?_⟩
  · intro x
    have hjoin := contains_join hend (n := (mallocGetBlockLength m e).toNat) x
    simp only [extents_append, extents_cons, cover_append, cover_cons]
    omega
  · intro b hb hba
    apply hkeep b _ hba
    simp only [List.mem_append, List.mem_cons] at hb ⊢
    tauto
  · apply BitVec.eq_of_toNat_eq
    rw [blockEnd, blockEnd, BitVec.toNat_add, BitVec.toNat_add, hlen]
    omega

theorem HeapRep.of_mergeInto_swapped {k k' : List Word} {p n : Word}
    (h : HeapRep L m (k ++ p :: blk :: n :: k')) (hpn : blockEnd m p = n)
    (hnb : blockEnd m n = blk) :
    HeapRep L (mergeInto (mergeInto m p blk) p n) (k ++ p :: k') ∧
      ∀ b ∈ k ++ k', mergeInto (mergeInto m p blk) p n b = m b := by
  have hlist : k ++ p :: blk :: n :: k' = (k ++ [p]) ++ blk :: (n :: k') := by simp
  have hp : p ∈ k ++ p :: blk :: n :: k' := by simp
  have hb : blk ∈ k ++ p :: blk :: n :: k' := by simp
  have hn : n ∈ k ++ p :: blk :: n :: k' := by simp
  have hendp := h.blockEnd_eq hp hpn
  have hendn := h.blockEnd_eq hn hnb
  have hinp := h.inside hp
  have hinb := h.inside hb
  have hsmall := L.small
  have hheader := h.header p hp
  have halp := h.aligned p hp
  have halb := h.aligned blk hb
  have haln := h.aligned n hn
  have hnd := h.nodup
  simp only [List.nodup_append, List.nodup_cons, List.mem_cons, not_or] at hnd
  obtain ⟨hring, hkeep, _, hlen⟩ := mergeInto_spec (hlist ▸ h.headers) (hlist ▸ h.ring)
    (show p ∈ (k ++ [p]) ++ n :: k' by simp) (by omega)
  have hlenn : mallocGetBlockLength (mergeInto m p blk) n = mallocGetBlockLength m n := by
    simp only [mallocGetBlockLength, hkeep n (by simp) (Ne.symm hnd.2.1.1.2.1)]
  have hH : Headers L ((k ++ [p]) ++ n :: k') := by
    apply (hlist ▸ h.headers : Headers L ((k ++ [p]) ++ blk :: (n :: k'))).of_sublist
    exact (List.Sublist.refl _).append (List.sublist_cons_self ..)
  obtain ⟨hring', hkeep', _, hlen'⟩ := mergeInto_spec hH hring
    (show p ∈ (k ++ [p]) ++ k' by simp) (by rw [hlen, hlenn]; omega)
  rw [show (k ++ [p]) ++ k' = k ++ p :: k' by simp] at hring'
  have hrest : ∀ b ∈ k ++ k', mergeInto (mergeInto m p blk) p n b = m b := by
    intro b hbmem
    have hne : b ≠ p := by
      rintro rfl
      cases List.mem_append.mp hbmem with
      | inl hk => exact hnd.2.2 b hk b (Or.inl rfl) rfl
      | inr hk => exact hnd.2.1.1.2.2 hk
    have hmem : b ∈ (k ++ [p]) ++ n :: k' := by
      simp only [List.mem_append, List.mem_cons] at hbmem ⊢
      tauto
    have hmem' : b ∈ (k ++ [p]) ++ blk :: n :: k' := by
      simp only [List.mem_append, List.mem_cons] at hbmem ⊢
      tauto
    rw [hkeep' b hmem hne, hkeep b hmem' hne]
  refine ⟨h.merge hring' ?_ hp hrest (by rw [hlen', hlen, hlenn]) (by omega) (by omega) ?_, hrest⟩
  · intro b hbmem
    simp only [List.mem_append, List.mem_cons] at hbmem ⊢
    tauto
  · intro x
    have hjoin := contains_join hendp (n := (mallocGetBlockLength m n).toNat) x
    have hjoin' := contains_join (a := p.toNat) (b := blk.toNat)
      (m := (mallocGetBlockLength m p).toNat + (mallocGetBlockLength m n).toNat)
      (n := (mallocGetBlockLength m blk).toNat) (by omega) x
    have htotal : (mallocGetBlockLength m p).toNat + (mallocGetBlockLength m n).toNat +
        (mallocGetBlockLength m blk).toNat = (mallocGetBlockLength m p).toNat +
        (mallocGetBlockLength m blk).toNat + (mallocGetBlockLength m n).toNat := by omega
    rw [htotal] at hjoin'
    simp only [extents_append, extents_cons, cover_append, cover_cons]
    omega

/-- The used blocks are still in the list and have the header they had. -/
def Kept (m m' : Memory) (blks blks' : List Word) : Prop :=
  ∀ b ∈ blks, mallocBlockIsFree m b = false → b ∈ blks' ∧ m' b = m b

private theorem ne_of_used {b c : Word} (hc : mallocBlockIsFree m c = true)
    (hb : mallocBlockIsFree m b = false) : b ≠ c := by
  rintro rfl
  rw [hc] at hb
  exact Bool.noConfusion hb

private theorem mem_without {k k' : List Word} {b : Word} (hb : b ∈ k ++ a :: e :: k')
    (hne : b ≠ e) : b ∈ k ++ a :: k' := by
  simp only [List.mem_append, List.mem_cons] at hb ⊢
  exact hb.imp_right (Or.imp_right (Or.resolve_left · hne))

theorem HeapRep.mergeInto_kept {k k' : List Word} (h : HeapRep L m (k ++ a :: e :: k'))
    (ha : mallocBlockIsFree m a = true) (he : mallocBlockIsFree m e = true)
    (hadj : blockEnd m a = e) :
    Kept m (mergeInto m a e) (k ++ a :: e :: k') (k ++ a :: k') := by
  intro b hb hbu
  have hmem := mem_without hb (ne_of_used he hbu)
  exact ⟨hmem, (h.of_mergeInto hadj).2.1 b hmem (ne_of_used ha hbu)⟩

private theorem mergeNext_eq_self (hring : IsRing m L.mallocList ((l ++ blk :: l').map listOf))
    (hnot : ∀ n k, l' = n :: k → mallocBlockIsFree m n = false) : mergeNext L m blk = m := by
  rw [mergeNext_eq hring]
  cases l' with
  | nil => rfl
  | cons n k => simp [hnot n k rfl]

private theorem HeapRep.merge_prev {k : List Word} {p : Word}
    (h : HeapRep L m (k ++ p :: blk :: l')) (hfree : mallocBlockIsFree m blk = true)
    (hp : mallocBlockIsFree m p = true) (hadj : blockEnd m p = blk)
    (hnot : ∀ n k, l' = n :: k → mallocBlockIsFree m n = false) :
    HeapRep L (mergeNext L (mergeInto m p blk) p) (k ++ p :: l') ∧
      Kept m (mergeNext L (mergeInto m p blk) p) (k ++ p :: blk :: l') (k ++ p :: l') := by
  obtain ⟨hrep, hkeep, _⟩ := h.of_mergeInto hadj
  have hnot' : ∀ n k', l' = n :: k' → mallocBlockIsFree (mergeInto m p blk) n = false := by
    rintro n k' rfl
    have hnd := hrep.nodup
    simp only [List.nodup_append, List.nodup_cons, List.mem_cons, not_or] at hnd
    rw [← hnot n k' rfl]
    simp only [mallocBlockIsFree, hkeep n (by simp) (Ne.symm hnd.2.1.1.1)]
  rw [mergeNext_eq_self hrep.ring hnot']
  exact ⟨hrep, h.mergeInto_kept hp hfree hadj⟩

private theorem HeapRep.merge_both {k k' : List Word} {p n : Word}
    (h : HeapRep L m (k ++ p :: blk :: n :: k')) (hfree : mallocBlockIsFree m blk = true)
    (hp : mallocBlockIsFree m p = true) (hn : mallocBlockIsFree m n = true)
    (hok : (blockEnd m p = blk ∧ blockEnd m blk = n) ∨ (blockEnd m p = n ∧ blockEnd m n = blk)) :
    HeapRep L (mergeNext L (mergeInto m p blk) p) (k ++ p :: k') ∧
      Kept m (mergeNext L (mergeInto m p blk) p) (k ++ p :: blk :: n :: k') (k ++ p :: k') := by
  have hnd := h.nodup
  simp only [List.nodup_append, List.nodup_cons, List.mem_cons, not_or] at hnd
  have hlist : k ++ p :: blk :: n :: k' = (k ++ [p]) ++ blk :: (n :: k') := by simp
  have hlen : (mallocGetBlockLength m p).toNat + (mallocGetBlockLength m blk).toNat < 2 ^ 30 := by
    have hapart := h.apart (a := p) (e := blk) (by simp) (by simp) hnd.2.1.1.1
    have hinp := h.inside (b := p) (by simp)
    have hinb := h.inside (b := blk) (by simp)
    have hsmall := L.small
    omega
  obtain ⟨hring, hkeep, _⟩ := mergeInto_spec (hlist ▸ h.headers) (hlist ▸ h.ring)
    (show p ∈ (k ++ [p]) ++ n :: k' by simp) hlen
  have hflag : mallocBlockIsFree (mergeInto m p blk) n = true := by
    rw [← hn]
    simp only [mallocBlockIsFree, hkeep n (by simp) (Ne.symm hnd.2.1.1.2.1)]
  have heq : mergeNext L (mergeInto m p blk) p = mergeInto (mergeInto m p blk) p n := by
    rw [show (k ++ [p]) ++ n :: k' = k ++ p :: n :: k' by simp] at hring
    rw [mergeNext_eq hring]
    simp [hflag]
  rw [heq]
  have hmem : ∀ b ∈ k ++ p :: blk :: n :: k', mallocBlockIsFree m b = false →
      b ∈ k ++ p :: n :: k' ∧ b ∈ k ++ p :: k' := by
    intro b hb hbu
    have hmid := mem_without hb (ne_of_used hfree hbu)
    exact ⟨hmid, mem_without hmid (ne_of_used hn hbu)⟩
  cases hok with
  | inl hok =>
      obtain ⟨hrep1, hkeep1, _, hend1⟩ := h.of_mergeInto hok.1
      obtain ⟨hrep2, hkeep2, _⟩ := hrep1.of_mergeInto (hend1.trans hok.2)
      refine ⟨hrep2, fun b hb hbu => ?_⟩
      have hbp := ne_of_used hp hbu
      obtain ⟨hb1, hb2⟩ := hmem b hb hbu
      exact ⟨hb2, (hkeep2 b hb2 hbp).trans (hkeep1 b hb1 hbp)⟩
  | inr hok =>
      obtain ⟨hrep, hrest⟩ := h.of_mergeInto_swapped hok.1 hok.2
      refine ⟨hrep, fun b hb hbu => ?_⟩
      obtain ⟨_, hb2⟩ := hmem b hb hbu
      refine ⟨hb2, hrest b ?_⟩
      simp only [List.mem_append, List.mem_cons] at hb2 ⊢
      exact hb2.imp_right (Or.resolve_left · (ne_of_used hp hbu))

theorem HeapRep.merge_neighbours (h : HeapRep L m blks) (hblk : blk ∈ blks)
    (hfree : mallocBlockIsFree m blk = true) (hok : MergesAdjacent L m blk) :
    ∃ blks', HeapRep L (mergeNext L (mergePrev L m blk).1 (mergePrev L m blk).2) blks' ∧
      Kept m (mergeNext L (mergePrev L m blk).1 (mergePrev L m blk).2) blks blks' := by
  obtain ⟨l, l', rfl⟩ := List.append_of_mem hblk
  have hnexts := nextFree_cases h.ring
  rcases mergePrev_cases h.ring with ⟨hprev, hnp⟩ | ⟨k, p, rfl, hp, hprev, hpf, hpb⟩
  · rw [hprev]
    rcases hnexts with ⟨_, hnot⟩ | ⟨n, k', rfl, hn, hnf, hnb⟩
    · rw [mergeNext_eq_self h.ring hnot]
      exact ⟨_, h, fun b hb _ => ⟨hb, rfl⟩⟩
    · have hadj : blockEnd m blk = n := by
        simpa only [MergesAdjacent, if_neg hnp, if_pos hnf, hnb] using hok
      have heq : mergeNext L m blk = mergeInto m blk n := by
        rw [mergeNext_eq h.ring]
        simp [hn]
      rw [heq]
      exact ⟨_, (h.of_mergeInto hadj).1, h.mergeInto_kept hfree hn hadj⟩
  · rw [hprev]
    rw [show (k ++ [p]) ++ blk :: l' = k ++ p :: blk :: l' by simp] at h ⊢
    rcases hnexts with ⟨hnn, hnot⟩ | ⟨n, k', rfl, hn, hnf, hnb⟩
    · have hadj : blockEnd m p = blk := by
        simpa only [MergesAdjacent, if_pos hpf, if_neg hnn, hpb] using hok
      exact ⟨_, h.merge_prev hfree hp hadj hnot⟩
    · simp only [MergesAdjacent, if_pos hpf, if_pos hnf, hpb, hnb] at hok
      exact ⟨_, h.merge_both hfree hp hn hok⟩

private theorem HeapRep.neighbours_ne (h : HeapRep L m blks) (hblk : blk ∈ blks) :
    blockOf (prev m (listOf blk)) ≠ blk ∧ blockOf (next m (listOf blk)) ≠ blk := by
  obtain ⟨l, l', rfl⟩ := List.append_of_mem hblk
  have hseg := h.ring.segment
  have hnd := h.ring.nodup
  simp only [List.map_append, List.map_cons] at hseg hnd
  rw [segment_append] at hseg
  rw [← List.cons_append, List.nodup_append, List.nodup_cons, List.nodup_cons] at hnd
  have hback : ∀ x : Word, blockOf x = blk → x = listOf blk := by
    intro x hx
    bv_omega
  constructor
  · intro heq
    exact hnd.2.2 _ (hback _ heq ▸ hseg.1.prev_mem) _ (by simp) rfl
  · intro heq
    have hmem : listOf blk ∈ l'.map listOf ++ [L.mallocList] := hback _ heq ▸ hseg.2.next_mem
    cases List.mem_append.mp hmem with
    | inl hmem => exact hnd.2.1.1 hmem
    | inr hmem => exact hnd.2.2 L.mallocList (by simp) _ (by simp) (List.mem_singleton.mp hmem).symm

private theorem mergesAdjacent_setFree (h : HeapRep L m blks) (hblk : blk ∈ blks) :
    MergesAdjacent L (mallocSetBlockFree m blk true) blk ↔ MergesAdjacent L m blk := by
  obtain ⟨hprevNe, hnextNe⟩ := h.neighbours_ne hblk
  have hprev : prev (mallocSetBlockFree m blk true) (listOf blk) = prev m (listOf blk) :=
    mallocSetBlockFree_ne true (by bv_omega)
  have hnext : next (mallocSetBlockFree m blk true) (listOf blk) = next m (listOf blk) :=
    mallocSetBlockFree_ne true (by bv_omega)
  have hflag : ∀ b, b ≠ blk → mallocBlockIsFree (mallocSetBlockFree m blk true) b =
      mallocBlockIsFree m b := by
    intro b hb
    simp only [mallocBlockIsFree, mallocSetBlockFree_ne true hb.symm]
  have hend : ∀ b, blockEnd (mallocSetBlockFree m blk true) b = blockEnd m b := by
    intro b
    by_cases hb : b = blk
    · rw [blockEnd, blockEnd, hb, mallocGetBlockLength_setFree]
    · simp only [blockEnd, mallocGetBlockLength, mallocSetBlockFree_ne true (Ne.symm hb)]
  have hprevFree : PrevFree L (mallocSetBlockFree m blk true) blk ↔ PrevFree L m blk := by
    rw [PrevFree, PrevFree, hprev, hflag _ hprevNe]
  have hnextFree : NextFree L (mallocSetBlockFree m blk true) blk ↔ NextFree L m blk := by
    rw [NextFree, NextFree, hnext, hflag _ hnextNe]
  by_cases hp : PrevFree L m blk <;> by_cases hn : NextFree L m blk <;>
    simp [MergesAdjacent, hprevFree, hnextFree, hp, hn, hprev, hnext, hend]

theorem free_spec (h : HeapRep L m blks) (hblk : blk ∈ blks) (hok : MergesAdjacent L m blk) :
    ∃ blks', HeapRep L (free L m (dataOf blk)) blks' ∧
      ∀ b ∈ blks, b ≠ blk → mallocBlockIsFree m b = false →
        b ∈ blks' ∧ free L m (dataOf blk) b = m b := by
  have hdata : dataOf blk - 12#32 = blk := BitVec.add_sub_cancel blk 12#32
  have hfree : free L m (dataOf blk) =
      mergeNext L (mergePrev L (mallocSetBlockFree m blk true) blk).1
        (mergePrev L (mallocSetBlockFree m blk true) blk).2 := by
    simp only [free, hdata]
  obtain ⟨blks', hrep, hkeep⟩ := (h.setFree hblk true).merge_neighbours hblk
    (mallocBlockIsFree_setFree ..) ((mergesAdjacent_setFree h hblk).mpr hok)
  rw [← hfree] at hrep hkeep
  refine ⟨blks', hrep, fun b hb hne hbu => ?_⟩
  have hword : mallocSetBlockFree m blk true b = m b := mallocSetBlockFree_ne true hne.symm
  have hbu' : mallocBlockIsFree (mallocSetBlockFree m blk true) b = false := by
    rw [← hbu]
    simp only [mallocBlockIsFree, hword]
  obtain ⟨hmem, hsame⟩ := hkeep b hb hbu'
  exact ⟨hmem, hsame.trans hword⟩

end Free

end Tenok
