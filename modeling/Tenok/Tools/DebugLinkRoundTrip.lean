import Mathlib.Data.List.Perm.Basic
import Tenok.Tools.Rtplot

/-!
From a packed message to the values that the receiver decodes. The sender packs the
elements without gaps, the receiver looks for element `i` at offset `4 * i`.
-/
namespace Tenok
open LittleEndian

def MsgMember.values (m : MsgMember) : List PyValue :=
  (List.range m.var.count).map fun i => m.var.cType.python (m.data i)

def valuesOf (members : List MsgMember) : List PyValue := members.flatMap MsgMember.values

/-- `rtplot` loads the YAML files that it finds. -/
def loadAll (yaml : List TenokMsg) : Option MsgList := yaml.foldlM MsgList.load []

/-- The receiver keeps every part of the frame until all of it is there, and then gives this
result and leaves what follows the frame. -/
structure Received (l : MsgList) (frame : List Byte) (result : ReceiveResult) : Prop where
  waits : ∀ fifo waiting more, fifo ++ waiting ++ more = frame → more ≠ [] →
    l.receiveMsg fifo waiting = (fifo ++ waiting, .retry)
  accepts : ∀ fifo waiting rest, fifo ++ waiting = frame ++ rest →
    l.receiveMsg fifo waiting = (rest, result)

/-- The receiver that has loaded these files gets the values back. -/
def RoundTrip (yaml : List TenokMsg) (msgId : Nat) (name : String) (members : List MsgMember)
    (buf : Nat → Byte) : Prop :=
  ∃ l, loadAll yaml = some l ∧
    Received l (packMsg msgId members buf) (.success msgId name (valuesOf members))

def elementTypes (vars : List MsgVar) : List CType :=
  vars.flatMap fun v => List.replicate v.count v.cType

/-- The types that `decode_field` can read. -/
def CType.Decodable (t : CType) : Prop :=
  t = .bool ∨ t = .uint16 ∨ t = .uint32 ∨ t = .int32 ∨ t = .float

instance CType.decidableDecodable (t : CType) : Decidable t.Decodable :=
  inferInstanceAs (Decidable (_ ∨ _))

/-- The number of the message fits in its byte, every message of the directory can be loaded,
and the elements are of types that the receiver can read, all but the last of four bytes. -/
structure Representable (files : List MsgFile) (msgId : Nat) (vars : List MsgVar) : Prop where
  loadable : ∀ f ∈ files, f.vars ≠ []
  msgId_lt : msgId < 256
  arrays : ∀ v ∈ vars, v.arraySize ≠ some 0
  decodable : ∀ t ∈ elementTypes vars, t.Decodable
  words : ∀ t ∈ (elementTypes vars).dropLast, t.size = 4

section Fields
variable {buffer pre post l : List Byte} {i n : Nat} {t : CType} {v : PyValue}

theorem fieldBytes_eq (h : i * 4 + n ≤ buffer.length) :
    fieldBytes buffer i n = some ((buffer.drop (i * 4)).take n) := by
  induction n with
  | zero => rfl
  | succ n ih =>
      have hlast : buffer[i * 4 + n]? = some buffer[i * 4 + n] :=
        List.getElem?_eq_getElem (by omega)
      have hprev := ih (by omega)
      rw [fieldBytes] at hprev
      rw [fieldBytes, List.range_succ, List.mapM_append, hprev, List.take_add_one,
        List.getElem?_drop]
      simp [hlast]

theorem fieldBytes_some (h : fieldBytes buffer i (n + 1) = some l) :
    i * 4 + (n + 1) ≤ buffer.length := by
  rw [fieldBytes, List.range_succ, List.mapM_append] at h
  obtain ⟨l₁, -, h⟩ := Option.bind_eq_some_iff.mp h
  obtain ⟨l₂, h, -⟩ := Option.bind_eq_some_iff.mp h
  have hlast : buffer[i * 4 + n]?.isSome := by
    rw [List.mapM_cons] at h
    obtain ⟨b, hb, -⟩ := Option.bind_eq_some_iff.mp h
    simp [hb]
  simp at hlast
  omega

theorem length_of_fieldBytes (h : fieldBytes buffer i (n + 1) = some l) : l.length = n + 1 := by
  have hle := fieldBytes_some h
  rw [fieldBytes_eq hle] at h
  obtain rfl := Option.some.inj h
  rw [List.length_take, List.length_drop]
  omega

theorem decodeField_append (hi : pre.length = i * 4) (ht : t.Decodable) (x : t.Value)
    (post : List Byte) : decodeField (pre ++ t.bytes x ++ post) t i = some (t.python x) := by
  have hbytes : fieldBytes (pre ++ t.bytes x ++ post) i t.size = some (t.bytes x) := by
    rw [fieldBytes_eq (by simp [hi]), ← hi, List.append_assoc, List.drop_left, ← t.length_bytes x,
      List.take_left]
  have hread : ∀ n (f : PyFormat), n = t.size →
      (fieldBytes (pre ++ t.bytes x ++ post) i n).bind (unpack f) = unpack f (t.bytes x) := by
    rintro n f rfl
    rw [hbytes, Option.bind_some]
  obtain rfl | rfl | rfl | rfl | rfl := ht
  · rw [decodeField, parseBool, hread 1 _ rfl]
    cases (x : Bool) <;> rfl
  · have hvalue : value 16 (LittleEndian.bytes 2 x) = x := value_bytes (by decide) x
    rw [decodeField, parseUint16, hread 2 _ rfl]
    simp [unpack, PyFormat.size, CType.bytes, CType.python, hvalue]
  · have hvalue : value 32 (LittleEndian.bytes 4 x) = x := value_bytes (by decide) x
    rw [decodeField, parseUint32, hread 4 _ rfl]
    simp [unpack, PyFormat.size, CType.bytes, CType.python, hvalue]
  · have hvalue : value 32 (LittleEndian.bytes 4 x) = x := value_bytes (by decide) x
    rw [decodeField, parseInt32, hread 4 _ rfl]
    simp [unpack, PyFormat.size, CType.bytes, CType.python, hvalue]
  · have hvalue : value 32 (LittleEndian.bytes 4 x) = x := value_bytes (by decide) x
    rw [decodeField, parseFloat, hread 4 _ rfl]
    simp [unpack, PyFormat.size, CType.bytes, CType.python, hvalue]

theorem unpack_length {f : PyFormat} (h : unpack f l = some v) : l.length = f.size := by
  by_contra hne
  simp [unpack, hne] at h

/-- Only types that the receiver can read are decoded, from bytes inside the buffer. -/
theorem decodeField_some (h : decodeField buffer t i = some v) :
    t.Decodable ∧ i * 4 + t.size ≤ buffer.length := by
  have hread : ∀ {n : Nat} {f : PyFormat}, (fieldBytes buffer i (n + 1)).bind (unpack f) = some v →
      n + 1 = f.size ∧ i * 4 + (n + 1) ≤ buffer.length := by
    intro n f hparse
    obtain ⟨l, hl, hf⟩ := Option.bind_eq_some_iff.mp hparse
    exact ⟨(length_of_fieldBytes hl).symm.trans (unpack_length hf), fieldBytes_some hl⟩
  cases t with
  | bool => exact ⟨by decide, (hread h).2⟩
  | uint16 => exact ⟨by decide, (hread h).2⟩
  | uint32 => exact ⟨by decide, (hread h).2⟩
  | int32 => exact ⟨by decide, (hread h).2⟩
  | float => exact ⟨by decide, (hread h).2⟩
  | uint8 => exact absurd (hread h).1 (by decide)
  | int8 => exact absurd (hread h).1 (by decide)
  | double => exact absurd (hread h).1 (by decide)
  | int16 => cases h
  | uint64 => cases h
  | int64 => cases h

end Fields

abbrev Element := (t : CType) × t.Value

def Element.bytes (e : Element) : List Byte := e.1.bytes e.2
def Element.python (e : Element) : PyValue := e.1.python e.2

def decodeTypes (buffer : List Byte) (types : List CType) (acc : Decoded) : Option Decoded :=
  types.foldlM (fun acc t => decodeElement buffer t acc) acc

section Types
variable {buffer : List Byte} {types : List CType} {acc acc' : Decoded}

theorem decodeTypes_append (l l' : List CType) (acc : Decoded) :
    decodeTypes buffer (l ++ l') acc = (decodeTypes buffer l acc).bind (decodeTypes buffer l') :=
  List.foldlM_append

theorem decodeFields_eq (fields : List TenokMsgField) :
    decodeFields buffer fields =
      decodeTypes buffer (fields.flatMap fun f => List.replicate f.passes f.cType) ([], 0) := by
  have hfield : ∀ (f : TenokMsgField) acc, (List.range f.passes).foldlM
      (fun acc _ => decodeElement buffer f.cType acc) acc =
      decodeTypes buffer (List.replicate f.passes f.cType) acc := fun f acc => by
    have hreplicate : List.replicate f.passes f.cType =
        (List.range f.passes).map fun _ => f.cType := by simp
    rw [hreplicate, decodeTypes, List.foldlM_map]
  simp only [decodeFields, hfield]
  generalize (([], 0) : Decoded) = acc
  induction fields generalizing acc with
  | nil => rfl
  | cons f fields ih =>
      simp only [List.foldlM_cons, List.flatMap_cons, decodeTypes_append, ih]
      rfl

theorem decodeTypes_elements {es : List Element} (pre post : List Byte) (acc : Decoded)
    (hdec : ∀ e ∈ es, e.1.Decodable) (hwords : ∀ e ∈ es.dropLast, e.1.size = 4)
    (hpre : pre.length = acc.2 * 4) :
    decodeTypes (pre ++ es.flatMap Element.bytes ++ post) (es.map Sigma.fst) acc =
      some (acc.1 ++ es.map Element.python, acc.2 + es.length) := by
  induction es generalizing pre acc with
  | nil => simp [decodeTypes]
  | cons e es ih =>
      have hfield : decodeField (pre ++ (e :: es).flatMap Element.bytes ++ post) e.1 acc.2 =
          some e.python := by
        have hat := decodeField_append hpre (hdec e (by simp)) e.2
          (es.flatMap Element.bytes ++ post)
        simpa [Element.bytes, Element.python] using hat
      have helem : decodeElement (pre ++ (e :: es).flatMap Element.bytes ++ post) e.1 acc =
          some (acc.1 ++ [e.python], acc.2 + 1) := by
        rw [decodeElement, hfield, Option.map_some]
      rw [List.map_cons, decodeTypes, List.foldlM_cons, helem]
      cases es with
      | nil => rfl
      | cons e' es =>
          have hsize : e.1.size = 4 := hwords e (by simp)
          have hnext := ih (pre ++ e.bytes) (acc.1 ++ [e.python], acc.2 + 1)
            (fun e he => hdec e (by simp [he])) (fun e he => hwords e (by simp [he]))
            (by simp [Element.bytes, hsize, hpre, Nat.add_mul])
          simpa [decodeTypes, Nat.add_assoc, Nat.add_comm 1] using hnext

theorem decodeElement_some {t : CType} (h : decodeElement buffer t acc = some acc') :
    (t.Decodable ∧ acc.2 * 4 + t.size ≤ buffer.length) ∧
      acc'.1.length = acc.1.length + 1 ∧ acc'.2 = acc.2 + 1 := by
  obtain ⟨v, hv, rfl⟩ := Option.map_eq_some_iff.mp h
  exact ⟨decodeField_some hv, by simp, rfl⟩

theorem decodeTypes_some (h : decodeTypes buffer types acc = some acc') :
    (∀ t ∈ types, t.Decodable) ∧ acc'.1.length = acc.1.length + types.length ∧
      acc'.2 = acc.2 + types.length := by
  induction types generalizing acc with
  | nil =>
      obtain rfl := Option.some.inj h
      simp
  | cons t types ih =>
      obtain ⟨acc₁, hfirst, hrest⟩ := Option.bind_eq_some_iff.mp h
      obtain ⟨⟨ht, -⟩, hlen, hcnt⟩ := decodeElement_some hfirst
      obtain ⟨hdec, hlen', hcnt'⟩ := ih hrest
      refine ⟨fun u hu => ?_, ?_, ?_⟩
      · obtain rfl | hu := List.mem_cons.mp hu
        · exact ht
        · exact hdec u hu
      · rw [List.length_cons]
        omega
      · rw [List.length_cons]
        omega

theorem decodeTypes_last {t : CType} (h : decodeTypes buffer (types ++ [t]) ([], 0) = some acc) :
    types.length * 4 + t.size ≤ buffer.length := by
  rw [decodeTypes_append] at h
  obtain ⟨acc₁, hinit, hlast⟩ := Option.bind_eq_some_iff.mp h
  obtain ⟨acc₂, hlast, -⟩ := Option.bind_eq_some_iff.mp hlast
  have hcnt := (decodeTypes_some hinit).2.2
  have hle := (decodeElement_some hlast).1.2
  simpa [hcnt] using hle

theorem CType.Decodable.size_cases {t : CType} (h : t.Decodable) :
    t.size = 1 ∨ t.size = 2 ∨ t.size = 4 := by
  obtain rfl | rfl | rfl | rfl | rfl := h <;> decide

/-- Elements of at most four bytes that leave no more than one byte of every four unused are
words. -/
theorem words_of_sum (hdec : ∀ t ∈ types, t.Decodable)
    (hsum : types.length * 4 ≤ (types.map CType.size).sum + 1) : ∀ t ∈ types, t.size = 4 := by
  have hle : ∀ l : List CType, (∀ t ∈ l, t.Decodable) → (l.map CType.size).sum ≤ l.length * 4 := by
    intro l hl
    induction l with
    | nil => simp
    | cons t l ih =>
        have hrest := ih fun u hu => hl u (by simp [hu])
        simp only [List.map_cons, List.sum_cons, List.length_cons]
        obtain h | h | h := (hl t (by simp)).size_cases <;> omega
  induction types with
  | nil => simp
  | cons t types ih =>
      have hrest := hle types fun u hu => hdec u (by simp [hu])
      simp only [List.map_cons, List.sum_cons, List.length_cons] at hsum
      have ht : t.size = 4 := by
        obtain h | h | h := (hdec t (by simp)).size_cases <;> omega
      intro u hu
      obtain rfl | hu := List.mem_cons.mp hu
      · exact ht
      · exact ih (fun u hu => hdec u (by simp [hu])) (by omega) u hu

end Types

def MsgMember.elements (m : MsgMember) : List Element :=
  (List.range m.var.count).map fun i => ⟨m.var.cType, m.data i⟩

def elementsOf (members : List MsgMember) : List Element := members.flatMap MsgMember.elements

section Messages
variable {files : List MsgFile} {yaml : List TenokMsg} {msgId : Nat} {name : String}
  {members : List MsgMember} {vars : List MsgVar} {l : MsgList}

theorem map_fst_elementsOf (members : List MsgMember) :
    (elementsOf members).map Sigma.fst = elementTypes (members.map (·.var)) := by
  simp [elementsOf, elementTypes, MsgMember.elements, List.map_flatMap, List.flatMap_map,
    Function.comp_def]

theorem map_python_elementsOf (members : List MsgMember) :
    (elementsOf members).map Element.python = valuesOf members := by
  rw [elementsOf, valuesOf, List.map_flatMap]
  refine List.flatMap_congr fun m _ => ?_
  rw [MsgMember.elements, MsgMember.values, List.map_map]
  rfl

theorem mem_dropLast_of_two_le_count {α : Type} [DecidableEq α] {l : List α} {a : α}
    (h : 2 ≤ l.count a) : a ∈ l.dropLast := by
  have hne : l ≠ [] := by
    rintro rfl
    simp at h
  rw [← List.dropLast_concat_getLast hne, List.count_append] at h
  have hlast : [l.getLast hne].count a ≤ 1 := List.count_le_length
  exact List.count_pos_iff.mp (by omega)

theorem Representable.count_le {v : MsgVar} (h : Representable files msgId vars) (hv : v ∈ vars)
    (ht : v.cType = .bool ∨ v.cType = .double) : v.count ≤ 1 := by
  by_contra hlt
  have hsub : (List.replicate v.count v.cType).Sublist (elementTypes vars) := by
    rw [elementTypes, List.flatMap_def]
    exact List.sublist_flatten_of_mem (List.mem_map_of_mem hv)
  have hcount := hsub.count_le v.cType
  rw [List.count_replicate_self] at hcount
  have hsize := h.words v.cType (mem_dropLast_of_two_le_count (by omega))
  obtain ht | ht := ht <;> rw [ht] at hsize <;> exact absurd hsize (by decide)

theorem Representable.payloadOf_eq (h : Representable files msgId (members.map (·.var))) :
    payloadOf members = (elementsOf members).flatMap Element.bytes := by
  have hmember : ∀ m ∈ members, m.packed = m.elements.flatMap Element.bytes := by
    intro m hm
    rw [MsgMember.packed, MsgMember.elements, List.flatMap_map]
    refine List.flatMap_congr fun i hi => ?_
    have hi := List.mem_range.mp hi
    split
    · next ht =>
        have hcount := h.count_le (List.mem_map_of_mem hm) ht
        obtain rfl : i = 0 := by omega
        rfl
    · rfl
  rw [payloadOf, elementsOf, List.flatMap_assoc]
  exact List.flatMap_congr hmember

theorem length_payloadOf (members : List MsgMember) :
    (payloadOf members).length = ((elementTypes (members.map (·.var))).map CType.size).sum := by
  induction members with
  | nil => rfl
  | cons m members ih =>
      have hm : m.packed.length = m.var.count * m.var.cType.size := by
        simp [MsgMember.packed, List.length_flatMap]
      simp only [payloadOf, elementTypes, List.flatMap_cons, List.map_cons, List.length_append,
        List.map_append, List.sum_append] at ih ⊢
      rw [ih, hm]
      simp

theorem loadAll_eq_some_iff : loadAll yaml = some l ↔ l = yaml ∧ ∀ f ∈ yaml, f.fields ≠ [] := by
  have hload : ∀ l₀ : MsgList, yaml.foldlM MsgList.load l₀ = some l ↔
      l = l₀ ++ yaml ∧ ∀ f ∈ yaml, f.fields ≠ [] := by
    intro l₀
    induction yaml generalizing l₀ with
    | nil => simp [eq_comm]
    | cons f yaml ih =>
        by_cases hf : f.fields = []
        · simp [MsgList.load, hf]
        · simp [MsgList.load, hf, ih]
  simpa [loadAll] using hload []

theorem mem_msggen {m : TenokMsg} :
    m ∈ msggen files ↔ ∃ i f, files[i]? = some f ∧ m = codegenYaml i f := by
  simp only [msggen, List.mem_map, Prod.exists, List.mem_zipIdx_iff_getElem?]
  exact ⟨fun ⟨f, i, hf, hm⟩ => ⟨i, f, hf, hm.symm⟩, fun ⟨i, f, hf, hm⟩ => ⟨f, i, hf, hm.symm⟩⟩

theorem findId_eq (hyaml : yaml.Perm (msggen files)) {file : MsgFile}
    (hfile : files[msgId]? = some file) :
    MsgList.findId yaml msgId = some (codegenYaml msgId file) := by
  have hmem : codegenYaml msgId file ∈ yaml :=
    hyaml.mem_iff.mpr (mem_msggen.mpr ⟨msgId, file, hfile, rfl⟩)
  cases hfind : MsgList.findId yaml msgId with
  | none =>
      rw [MsgList.findId, List.find?_eq_none] at hfind
      exact absurd (hfind _ hmem) (by simp [codegenYaml])
  | some m =>
      have hm := hyaml.mem_iff.mp (List.mem_of_find?_eq_some hfind)
      obtain ⟨i, f, hf, rfl⟩ := mem_msggen.mp hm
      have hi := List.find?_some hfind
      obtain rfl : i = msgId := of_decide_eq_true hi
      rw [Option.some.inj (hf.symm.trans hfile)]

def receivedTypes (vars : List MsgVar) : List CType :=
  (codegenYaml 0 ⟨"", vars⟩).fields.flatMap fun f => List.replicate f.passes f.cType

theorem receivedTypes_cons (v : MsgVar) (vars : List MsgVar) :
    receivedTypes (v :: vars) =
      List.replicate (if v.arraySize = some 0 then 1 else v.count) v.cType ++
        receivedTypes vars := by
  obtain ⟨t, name, size⟩ := v
  have hpasses : TenokMsgField.passes ⟨t, name, size.getD 0⟩ =
      if size = some 0 then 1 else MsgVar.count ⟨t, name, size⟩ := by
    cases size with
    | none => rfl
    | some n => simp [TenokMsgField.passes, MsgVar.count]
  simp [receivedTypes, codegenYaml, hpasses]

theorem receivedTypes_eq (h : ∀ v ∈ vars, v.arraySize ≠ some 0) :
    receivedTypes vars = elementTypes vars := by
  induction vars with
  | nil => rfl
  | cons v vars ih =>
      rw [receivedTypes_cons, if_neg (h v (by simp)), ih fun v hv => h v (by simp [hv])]
      simp [elementTypes]

theorem arrays_of_length (h : (receivedTypes vars).length ≤ (elementTypes vars).length) :
    ∀ v ∈ vars, v.arraySize ≠ some 0 := by
  have hle : ∀ vars, (elementTypes vars).length ≤ (receivedTypes vars).length := by
    intro vars
    induction vars with
    | nil => simp [elementTypes]
    | cons v vars ih =>
        have hcount : v.arraySize = some 0 → v.count = 0 := fun h => by simp [MsgVar.count, h]
        rw [receivedTypes_cons]
        simp only [elementTypes, List.flatMap_cons, List.length_append,
          List.length_replicate] at ih ⊢
        split
        · next hv =>
            rw [hcount hv]
            omega
        · omega
  induction vars with
  | nil => simp
  | cons v vars ih =>
      have hrest := hle vars
      rw [receivedTypes_cons] at h
      simp only [elementTypes, List.flatMap_cons, List.length_append,
        List.length_replicate] at h hrest ih
      by_cases hv : v.arraySize = some 0
      · have hcount : v.count = 0 := by simp [MsgVar.count, hv]
        rw [if_pos hv, hcount] at h
        omega
      · rw [if_neg hv] at h
        intro u hu
        obtain rfl | hu := List.mem_cons.mp hu
        · exact hv
        · exact ih (by omega) u hu

theorem receiveMsg_frame {payload fifo waiting rest : List Byte} {c id : Byte}
    (hsize : payload.length ≤ 255)
    (hsum : c = payload.foldl (· ^^^ ·) dbglinkChecksumInitVal)
    (h : fifo ++ waiting = [64#8, BitVec.ofNat 8 payload.length, id] ++ payload ++ [c] ++ rest) :
    l.receiveMsg fifo waiting = match l.decodeMsg (payload ++ [c]) id.toNat with
      | .failed | .raised => (fifo ++ waiting, .raised)
      | .success msgName data => (rest, .success id.toNat msgName data) := by
  have hcnt : (BitVec.ofNat 8 payload.length).toNat = payload.length :=
    Nat.mod_eq_of_lt (by omega)
  have hbuf : (payload ++ [c] ++ rest).take (payload.length + 1) = payload ++ [c] :=
    List.take_left' (by simp)
  have hdrop : (fifo ++ waiting).drop (payload.length + 3 + 1) = rest := by
    rw [h]
    exact List.drop_left' (by simp)
  have hlen : ¬ (fifo ++ waiting).length < payload.length + 3 + 1 := by
    rw [h]
    simp
  have hsum' : ¬ (payload ++ [c])[payload.length]? ≠
      some (((payload ++ [c]).take payload.length).foldl (· ^^^ ·) dbglinkChecksumInitVal) := by
    simp [hsum]
  rw [List.append_assoc, List.append_assoc, List.cons_append, List.cons_append,
    List.cons_append, List.nil_append, ← List.append_assoc] at h
  simp only [MsgList.receiveMsg]
  generalize hfifo : fifo ++ waiting = all at *
  subst h
  simp only [hcnt, dbglinkHeaderSize, hbuf, hdrop]
  refine (if_neg (by simp)).trans ((if_neg hlen).trans ((if_neg hsum').trans ?_))
  cases l.decodeMsg (payload ++ [c]) id.toNat <;> rfl

theorem receiveMsg_part {payload fifo waiting more : List Byte} {c id : Byte}
    (hsize : payload.length ≤ 255) (hmore : more ≠ [])
    (h : fifo ++ waiting ++ more =
      [64#8, BitVec.ofNat 8 payload.length, id] ++ payload ++ [c]) :
    l.receiveMsg fifo waiting = (fifo ++ waiting, .retry) := by
  have hcnt : (BitVec.ofNat 8 payload.length).toNat = payload.length :=
    Nat.mod_eq_of_lt (by omega)
  have hpos := List.length_pos_iff.mpr hmore
  have hlen := congrArg List.length h
  simp only [List.length_append, List.length_cons, List.length_nil] at hlen
  simp only [MsgList.receiveMsg]
  split
  · next startByte size msgId part hpart =>
      rw [hpart] at h
      simp only [List.cons_append, List.nil_append, List.cons.injEq] at h
      obtain ⟨rfl, rfl, -, -⟩ := h
      have hshort : (fifo ++ waiting).length < payload.length + 3 + 1 := by
        rw [List.length_append]
        omega
      rw [hpart] at hshort
      simp only [hcnt, dbglinkHeaderSize]
      rw [if_neg (by simp), hpart, if_pos hshort]
  · rfl

theorem length_valuesOf (members : List MsgMember) :
    (valuesOf members).length = (elementTypes (members.map (·.var))).length := by
  rw [← map_python_elementsOf, ← map_fst_elementsOf, List.length_map, List.length_map]

theorem decodeMsg_eq (hyaml : yaml.Perm (msggen files)) {buffer : List Byte}
    (hfile : files[msgId]? = some ⟨name, vars⟩) :
    MsgList.decodeMsg yaml buffer msgId =
      match decodeTypes buffer (receivedTypes vars) ([], 0) with
      | none => .failed
      | some (dataList, _) => .success name dataList := by
  have hlt : ¬ yaml.length ≤ msgId := by
    have hlen : yaml.length = files.length := by simpa [msggen] using hyaml.length_eq
    have hmsg := (List.getElem?_eq_some_iff.mp hfile).1
    omega
  simp only [MsgList.decodeMsg, findId_eq hyaml hfile]
  rw [if_neg hlt, decodeFields_eq]
  rfl

theorem Representable.roundTrip (hyaml : yaml.Perm (msggen files))
    (hfile : files[msgId]? = some ⟨name, members.map (·.var)⟩)
    (hsize : (payloadOf members).length ≤ 255)
    (h : Representable files msgId (members.map (·.var))) (buf : Nat → Byte) :
    RoundTrip yaml msgId name members buf := by
  have hload : ∀ m ∈ yaml, m.fields ≠ [] := by
    intro m hm
    obtain ⟨i, f, hf, rfl⟩ := mem_msggen.mp (hyaml.mem_iff.mp hm)
    simpa [codegenYaml] using h.loadable f (List.mem_of_getElem? hf)
  have hid : (BitVec.ofNat 8 msgId).toNat = msgId := Nat.mod_eq_of_lt h.msgId_lt
  have htypes : receivedTypes (members.map (·.var)) = (elementsOf members).map Sigma.fst := by
    rw [receivedTypes_eq h.arrays, map_fst_elementsOf]
  have hdec : ∀ e ∈ elementsOf members, e.1.Decodable := by
    intro e he
    refine h.decodable e.1 ?_
    rw [← map_fst_elementsOf]
    exact List.mem_map_of_mem he
  have hwords : ∀ e ∈ (elementsOf members).dropLast, e.1.size = 4 := by
    intro e he
    refine h.words e.1 ?_
    rw [← map_fst_elementsOf, ← List.map_dropLast]
    exact List.mem_map_of_mem he
  have hdecode : ∀ c, MsgList.decodeMsg yaml (payloadOf members ++ [c]) msgId =
      .success name (valuesOf members) := by
    intro c
    have helems := decodeTypes_elements [] [c] ([], 0) hdec hwords rfl
    rw [decodeMsg_eq hyaml hfile, htypes, h.payloadOf_eq]
    simp only [List.nil_append] at helems
    rw [helems, map_python_elementsOf]
  refine ⟨yaml, loadAll_eq_some_iff.mpr ⟨rfl, hload⟩, fun fifo waiting more hmsg hmore => ?_,
    fun fifo waiting rest hmsg => ?_⟩
  · exact receiveMsg_part hsize hmore (hmsg.trans (packMsg_eq ..))
  · rw [packMsg_eq] at hmsg
    rw [receiveMsg_frame hsize rfl hmsg, hid, hdecode]

theorem RoundTrip.representable (hyaml : yaml.Perm (msggen files))
    (hfile : files[msgId]? = some ⟨name, members.map (·.var)⟩)
    (hsize : (payloadOf members).length ≤ 255) {buf : Nat → Byte}
    (h : RoundTrip yaml msgId name members buf) :
    Representable files msgId (members.map (·.var)) := by
  obtain ⟨l, hl, hreceived⟩ := h
  obtain ⟨rfl, hload⟩ := loadAll_eq_some_iff.mp hl
  have hframe : [] ++ packMsg msgId members buf = packMsg msgId members buf ++ [] := by
    simp
  have hresult := hreceived.accepts _ _ _ hframe
  rw [packMsg_eq] at hframe hresult
  rw [receiveMsg_frame hsize rfl hframe] at hresult
  split at hresult
  · cases hresult
  · cases hresult
  · next msgName data hdecode =>
      simp only [Prod.mk.injEq, ReceiveResult.success.injEq, true_and] at hresult
      obtain ⟨hid, rfl, rfl⟩ := hresult
      rw [hid, decodeMsg_eq hyaml hfile] at hdecode
      split at hdecode
      · cases hdecode
      · next data cnt htypes =>
          simp only [DecodeResult.success.injEq, true_and] at hdecode
          subst hdecode
          obtain ⟨hdec, hlen, -⟩ := decodeTypes_some htypes
          rw [length_valuesOf, List.length_nil, Nat.zero_add] at hlen
          have harrays := arrays_of_length (Nat.le_of_eq hlen.symm)
          rw [receivedTypes_eq harrays] at hdec htypes
          refine ⟨fun f hf => ?_, ?_, harrays, hdec, ?_⟩
          · obtain ⟨i, hi⟩ := List.getElem?_of_mem hf
            have hmem := hyaml.mem_iff.mpr (mem_msggen.mpr ⟨i, f, hi, rfl⟩)
            simpa [codegenYaml] using hload _ hmem
          · rw [← hid]
            exact BitVec.isLt _
          · obtain hnil | ⟨init, t, hsplit⟩ :=
              (elementTypes (members.map (·.var))).eq_nil_or_concat
            · simp [hnil]
            · rw [List.concat_eq_append] at hsplit
              rw [hsplit] at htypes hdec ⊢
              have hlast := decodeTypes_last htypes
              have hsum := length_payloadOf members
              rw [hsplit, List.map_append, List.sum_append] at hsum
              rw [List.dropLast_concat]
              refine words_of_sum (fun t ht => hdec t (by simp [ht])) ?_
              simp at hsum hlast
              omega

/-- A message arrives, whatever its values are, exactly if the receiver can represent it. -/
theorem roundTrip_iff_representable (hyaml : yaml.Perm (msggen files))
    (hfile : files[msgId]? = some ⟨name, members.map (·.var)⟩)
    (hsize : (payloadOf members).length ≤ 255) (buf : Nat → Byte) :
    RoundTrip yaml msgId name members buf ↔ Representable files msgId (members.map (·.var)) :=
  ⟨RoundTrip.representable hyaml hfile hsize, fun h => h.roundTrip hyaml hfile hsize buf⟩

end Messages

def motionMsg : MsgFile :=
  ⟨"motion", [⟨.uint32, "time", none⟩, ⟨.float, "accel", some 3⟩, ⟨.bool, "valid", none⟩]⟩

def motionMembers : List MsgMember :=
  [⟨⟨.uint32, "time", none⟩, fun _ => 1000#32⟩,
    ⟨⟨.float, "accel", some 3⟩, fun i => BitVec.ofNat 32 (0x3f800000 + i)⟩,
    ⟨⟨.bool, "valid", none⟩, fun _ => true⟩]

theorem roundTrip_iff_representable_at_motion :
    RoundTrip (msggen [motionMsg]) 0 "motion" motionMembers fun _ => 0#8 := by
  refine (roundTrip_iff_representable (List.Perm.refl _) rfl (by decide) _).mpr ?_
  exact ⟨by decide, by decide, by decide, by decide, by decide⟩

/-- A message with one byte is not decoded: `receive_msg` raises an exception and leaves the
frame in the FIFO. -/
theorem roundTrip_not_for_byte :
    let files : List MsgFile := [⟨"mode", [⟨.uint8, "mode", none⟩]⟩]
    let members : List MsgMember := [⟨⟨.uint8, "mode", none⟩, fun _ => 7#8⟩]
    let frame := packMsg 0 members fun _ => 0#8
    (payloadOf members).length ≤ 255 ∧
      MsgList.receiveMsg (msggen files) [] frame = (frame, .raised) ∧
      ¬ RoundTrip (msggen files) 0 "mode" members fun _ => 0#8 := by
  intro files members frame
  have hraised : MsgList.receiveMsg (msggen files) [] frame = (frame, .raised) := by decide
  refine ⟨by decide, hraised, fun ⟨l, hl, hreceived⟩ => ?_⟩
  obtain ⟨rfl, -⟩ := loadAll_eq_some_iff.mp hl
  have hresult := hreceived.accepts [] frame [] (by simp [frame])
  exact absurd (hraised.symm.trans hresult) (by simp)

end Tenok
