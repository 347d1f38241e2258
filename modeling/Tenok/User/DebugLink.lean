import Tenok.Common.Util
import Tenok.Lib.LittleEndian

/-!
`user/debug-link/debug_link.c` and the calls that `tools/msggen` generates for a message.
A payload is the bytes that a buffer holds from its start. Floating-point numbers are known
by their encodings.
-/
namespace Tenok
open LittleEndian

/-- `support_types`. -/
inductive CType
  | bool
  | uint8
  | int8
  | uint16
  | int16
  | uint32
  | int32
  | uint64
  | int64
  | float
  | double
  deriving DecidableEq, Repr

namespace CType

def size : CType → Nat
  | .bool | .uint8 | .int8 => 1
  | .uint16 | .int16 => 2
  | .uint32 | .int32 | .float => 4
  | .uint64 | .int64 | .double => 8

@[reducible] def Value : CType → Type
  | .bool => Bool
  | .uint8 | .int8 => BitVec 8
  | .uint16 | .int16 => BitVec 16
  | .uint32 | .int32 | .float => BitVec 32
  | .uint64 | .int64 | .double => BitVec 64

def bytes : (t : CType) → t.Value → List Byte
  | .bool, b => [if b = true then 1#8 else 0#8]
  | .uint8, x | .int8, x => LittleEndian.bytes 1 (x : BitVec 8)
  | .uint16, x | .int16, x => LittleEndian.bytes 2 (x : BitVec 16)
  | .uint32, x | .int32, x | .float, x => LittleEndian.bytes 4 (x : BitVec 32)
  | .uint64, x | .int64, x | .double, x => LittleEndian.bytes 8 (x : BitVec 64)

@[simp] theorem length_bytes (t : CType) (x : t.Value) : (t.bytes x).length = t.size := by
  cases t with
  | bool => rfl
  | _ => exact LittleEndian.length_bytes ..

end CType

def dbglinkHeaderSize : Nat := 3
def dbglinkChecksumInitVal : Byte := 63#8

structure DebugLinkPayload where
  data : Nat → Byte
  size : Nat

namespace DebugLinkPayload

def contents (p : DebugLinkPayload) : List Byte := bytesAt p.data p.size

/-- `memcpy` of an object behind the data, and its size added. -/
def put (p : DebugLinkPayload) (object : List Byte) : DebugLinkPayload where
  data := memcpy p.data p.size (fun i => object.getD i 0#8) object.length
  size := p.size + object.length

def packDebugLinkMsgHeader (p : DebugLinkPayload) (messageId : Nat) : DebugLinkPayload where
  data := Function.update p.data 2 (BitVec.ofNat 8 messageId)
  size := dbglinkHeaderSize

/-- The loop of the functions that pack the elements of an array one after the other. -/
def packElements (t : CType) (data : Nat → t.Value) (p : DebugLinkPayload) (n : Nat) :
    DebugLinkPayload :=
  (List.range n).foldl (fun p i => p.put (t.bytes (data i))) p

/-- The loop does not move on in `data`. -/
def packDebugLinkMsgBool (data : Nat → Bool) (p : DebugLinkPayload) (n : Nat) :
    DebugLinkPayload :=
  (List.range n).foldl (fun p _ => p.put (CType.bool.bytes (data 0))) p

def packDebugLinkMsgUint8 (data : Nat → BitVec 8) := packElements .uint8 data
def packDebugLinkMsgInt8 (data : Nat → BitVec 8) := packElements .int8 data
def packDebugLinkMsgUint16 (data : Nat → BitVec 16) := packElements .uint16 data
def packDebugLinkMsgInt16 (data : Nat → BitVec 16) := packElements .int16 data
def packDebugLinkMsgUint32 (data : Nat → BitVec 32) := packElements .uint32 data
def packDebugLinkMsgInt32 (data : Nat → BitVec 32) := packElements .int32 data
def packDebugLinkMsgUint64 (data : Nat → BitVec 64) := packElements .uint64 data
def packDebugLinkMsgInt64 (data : Nat → BitVec 64) := packElements .int64 data
def packDebugLinkMsgFloat (data : Nat → BitVec 32) := packElements .float data

/-- The loop copies from `data`, not from `&data[i]`. -/
def packDebugLinkMsgDouble (data : Nat → BitVec 64) (p : DebugLinkPayload) (n : Nat) :
    DebugLinkPayload :=
  (List.range n).foldl (fun p _ => p.put (CType.double.bytes (data 0))) p

def generateDebugLinkMsgChecksum (p : DebugLinkPayload) : DebugLinkPayload :=
  let data := ptrAdd p.data dbglinkHeaderSize
  let checksum := (List.range (p.size - dbglinkHeaderSize)).foldl
    (fun checksum i => checksum ^^^ data i) dbglinkChecksumInitVal
  let data := Function.update p.data 0 64#8
  let data := Function.update data 1 (BitVec.ofNat 8 (p.size - 3))
  { data := Function.update data p.size checksum, size := p.size + 1 }

end DebugLinkPayload

def CType.packDebugLinkMsg :
    (t : CType) → (Nat → t.Value) → DebugLinkPayload → Nat → DebugLinkPayload
  | .bool => DebugLinkPayload.packDebugLinkMsgBool
  | .uint8 => DebugLinkPayload.packDebugLinkMsgUint8
  | .int8 => DebugLinkPayload.packDebugLinkMsgInt8
  | .uint16 => DebugLinkPayload.packDebugLinkMsgUint16
  | .int16 => DebugLinkPayload.packDebugLinkMsgInt16
  | .uint32 => DebugLinkPayload.packDebugLinkMsgUint32
  | .int32 => DebugLinkPayload.packDebugLinkMsgInt32
  | .uint64 => DebugLinkPayload.packDebugLinkMsgUint64
  | .int64 => DebugLinkPayload.packDebugLinkMsgInt64
  | .float => DebugLinkPayload.packDebugLinkMsgFloat
  | .double => DebugLinkPayload.packDebugLinkMsgDouble

/-- `struct msg_var_entry`: a variable, or an array of that size. -/
structure MsgVar where
  cType : CType
  varName : String
  arraySize : Option Nat
  deriving DecidableEq, Repr

/-- The number of elements in the generated call. -/
def MsgVar.count (v : MsgVar) : Nat := v.arraySize.getD 1

structure MsgMember where
  var : MsgVar
  data : Nat → var.cType.Value

/-- `pack_debug_link_<name>_msg`, as `codegen` writes it, on a buffer with any contents. -/
def packMsg (msgId : Nat) (members : List MsgMember) (buf : Nat → Byte) : List Byte :=
  let payload := DebugLinkPayload.packDebugLinkMsgHeader ⟨buf, 0⟩ msgId
  let payload := members.foldl
    (fun p m => m.var.cType.packDebugLinkMsg m.data p m.var.count) payload
  payload.generateDebugLinkMsgChecksum.contents

namespace MsgMember

/-- The elements of a member, as `packDebugLinkMsg` copies them. -/
def packed (m : MsgMember) : List Byte :=
  (List.range m.var.count).flatMap fun i =>
    m.var.cType.bytes (m.data (if m.var.cType = .bool ∨ m.var.cType = .double then 0 else i))

end MsgMember

namespace DebugLinkPayload
variable {t : CType} {p : DebugLinkPayload} {n : Nat}

theorem contents_put (p : DebugLinkPayload) (object : List Byte) :
    (p.put object).contents = p.contents ++ object := by
  refine List.ext_getElem (by simp [contents, put, bytesAt]) fun i hi _ => ?_
  simp only [contents, put, bytesAt, List.length_map, List.length_range] at hi
  by_cases hold : i < p.size
  · simp [contents, put, bytesAt, memcpy, hold]
  · have hnew : i - p.size < object.length := by omega
    simp [contents, put, bytesAt, memcpy, List.getElem_append, hold, hnew]
    omega

theorem contents_puts (object : Nat → List Byte) (p : DebugLinkPayload) (n : Nat) :
    ((List.range n).foldl (fun p i => p.put (object i)) p).contents =
      p.contents ++ (List.range n).flatMap object := by
  induction n with
  | zero => simp
  | succ n ih => simp [List.range_succ, contents_put, ih]

theorem contents_generate {a b c : Byte} {l : List Byte} (h : p.contents = [a, b, c] ++ l) :
    p.generateDebugLinkMsgChecksum.contents =
      [64#8, BitVec.ofNat 8 l.length, c] ++ l ++ [l.foldl (· ^^^ ·) dbglinkChecksumInitVal] := by
  have hsize : p.size = 3 + l.length := by
    have hlen := congrArg List.length h
    rw [contents, length_bytesAt, List.length_append] at hlen
    exact hlen
  rw [contents, hsize, bytesAt_add] at h
  obtain ⟨hheader, hdata⟩ := List.append_inj h (length_bytesAt ..)
  obtain ⟨-, -, hc⟩ : p.data 0 = a ∧ p.data 1 = b ∧ p.data 2 = c := by
    simpa [bytesAt, List.range_succ] using hheader
  have hsum : l.foldl (· ^^^ ·) dbglinkChecksumInitVal = (List.range l.length).foldl
      (fun c i => c ^^^ ptrAdd p.data 3 i) dbglinkChecksumInitVal := by
    conv_lhs => rw [← hdata, bytesAt, List.foldl_map]
  have hrest : ∀ g : Nat → Byte, (∀ i < l.length, g (3 + i) = p.data (3 + i)) →
      bytesAt (ptrAdd g 3) l.length = l := fun g hg =>
    (List.map_congr_left fun i hi => hg i (List.mem_range.mp hi)).trans hdata
  simp only [generateDebugLinkMsgChecksum, contents, hsize, dbglinkHeaderSize,
    Nat.add_sub_cancel_left]
  rw [bytesAt_update, bytesAt_add, hrest, hsum]
  · simp [bytesAt, List.range_succ, hc]
  · intro i _
    simp [show 3 + i ≠ 1 by omega]

end DebugLinkPayload

theorem MsgMember.contents_pack (m : MsgMember) (p : DebugLinkPayload) :
    (m.var.cType.packDebugLinkMsg m.data p m.var.count).contents = p.contents ++ m.packed := by
  obtain ⟨⟨t, name, size⟩, data⟩ := m
  cases t <;> exact DebugLinkPayload.contents_puts ..

theorem contents_members (members : List MsgMember) (p : DebugLinkPayload) :
    (members.foldl (fun p m => m.var.cType.packDebugLinkMsg m.data p m.var.count) p).contents =
      p.contents ++ members.flatMap MsgMember.packed := by
  induction members generalizing p with
  | nil => simp
  | cons m members ih => simp [ih, MsgMember.contents_pack]

def payloadOf (members : List MsgMember) : List Byte := members.flatMap MsgMember.packed

theorem packMsg_eq (msgId : Nat) (members : List MsgMember) (buf : Nat → Byte) :
    packMsg msgId members buf =
      [64#8, BitVec.ofNat 8 (payloadOf members).length, BitVec.ofNat 8 msgId] ++
        payloadOf members ++ [(payloadOf members).foldl (· ^^^ ·) dbglinkChecksumInitVal] := by
  refine DebugLinkPayload.contents_generate (a := buf 0) (b := buf 1) ?_
  rw [contents_members, payloadOf]
  rfl

end Tenok
